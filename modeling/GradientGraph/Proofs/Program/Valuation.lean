import GradientGraph.Proofs.Derivative.Program
import GradientGraph.Proofs.Graph.Value
import GradientGraph.Proofs.Plan.Solution

/-!
# The valuation of a plan

Where every node reads sources and nodes before it, the values of the sources settle all
others: at most one valuation is consistent with the formulas, and to evaluate the nodes
in order is to find it. A pass of evaluation does so on the graph, whatever the nodes
held before, and has nothing left to do when it is repeated.
-/

set_option autoImplicit false

namespace GradientGraph

open GradientGraph.Graph

namespace Plan

variable {K : Type} [Zero K] [One K] [Add K] [Mul K] [MulAdd K] [Capacity K] [NatCast K]
  [Calculus K]

def Settles (φ : NodeId → Option (Formula K)) (ρ : NodeId → Option (Value K)) (n : NodeId) :
    Prop := ∃ a v, φ n = some a ∧ a.expression.valueUnder ρ = some v ∧ ρ n = some v

/-- Whether every node of the plan that is computed holds the value of its formula. -/
def Consistent (p : Plan) (φ : NodeId → Option (Formula K)) (ρ : NodeId → Option (Value K)) :
    Prop := ∀ n ∈ p.inner, Settles φ ρ n

def evaluateUnder (p : Plan) (φ : NodeId → Option (Formula K)) (ρ : NodeId → Option (Value K)) :
    Option (NodeId → Option (Value K)) := p.inner.foldlM (evaluateStep φ) ρ

variable {p : Plan} {φ : NodeId → Option (Formula K)} {ρ σ : NodeId → Option (Value K)}
  {n : NodeId}

/-- What evaluation finds for a node: the value of its formula, or the value it has. -/
def valueRule (φ : NodeId → Option (Formula K)) (n : NodeId) (ρ : NodeId → Option (Value K)) :
    Option (Option (Value K)) :=
  match φ n with
  | none => some (ρ n)
  | some a => (a.expression.valueUnder ρ).map some

theorem valueRule_eq {a : Formula K} (ha : φ n = some a) :
    valueRule φ n ρ = (a.expression.valueUnder ρ).map some := by
  rw [valueRule, ha]

theorem valueRule_local : Local φ (valueRule φ) := by
  intro n a ha σ τ h
  rw [valueRule_eq ha, valueRule_eq ha, Expression.valueUnder_congr h]

theorem evaluateStep_eq_work : evaluateStep φ = workStep (valueRule φ) := by
  funext ρ n
  rw [evaluateStep, workStep, valueRule]
  cases φ n with
  | none =>
    change some ρ = some (Function.update ρ n (ρ n))
    rw [Function.update_eq_self]
  | some a => exact (Option.map_map (Function.update ρ n) some _).symm

theorem evaluateUnder_eq_work :
    p.evaluateUnder φ ρ = p.inner.foldlM (workStep (valueRule φ)) ρ := by
  rw [evaluateUnder, evaluateStep_eq_work]

theorem Settles.rule (h : Settles φ ρ n) : valueRule φ n ρ = some (ρ n) := by
  obtain ⟨a, v, ha, hv, hn⟩ := h
  rw [valueRule_eq ha, hv, hn, Option.map_some]

theorem Consistent.solves (h : p.Consistent φ ρ) : p.Solves (valueRule φ) ρ :=
  fun n hn => (h n hn).rule

theorem Solves.consistent (h : p.Solves (valueRule φ) ρ) (ho : p.Ordered φ) :
    p.Consistent φ ρ := by
  intro n hn
  obtain ⟨a, ha⟩ := ho.computed n hn
  have hrule := h n hn
  rw [valueRule_eq ha] at hrule
  obtain ⟨v, hv, hρ⟩ := Option.map_eq_some_iff.mp hrule
  exact ⟨a, v, ha, hv, hρ.symm⟩

theorem evaluateUnder_other (h : p.evaluateUnder φ ρ = some σ) {m : NodeId} (hm : m ∉ p.inner) :
    σ m = ρ m := by
  rw [evaluateUnder_eq_work] at h
  exact work_other h hm

variable (ho : p.Ordered φ)
include ho

theorem evaluateUnder_consistent (h : p.evaluateUnder φ ρ = some σ) : p.Consistent φ σ := by
  rw [evaluateUnder_eq_work] at h
  exact (solves_of_work ho valueRule_local h).consistent ho

/-- From the values of the sources evaluation finds every consistent valuation that has
them, whatever the other nodes held. -/
theorem evaluateUnder_eq (hσ : p.Consistent φ σ) (hsources : ∀ s ∈ p.outer, ρ s = σ s) :
    ∃ τ, p.evaluateUnder φ ρ = some τ ∧ ∀ n ∈ p.order, τ n = σ n := by
  rw [evaluateUnder_eq_work]
  exact hσ.solves.found ho valueRule_local hsources

theorem Consistent.unique (hρ : p.Consistent φ ρ) (hσ : p.Consistent φ σ)
    (hsources : ∀ s ∈ p.outer, ρ s = σ s) : ∀ n ∈ p.order, ρ n = σ n :=
  hρ.solves.unique ho valueRule_local hσ.solves hsources

end Plan

namespace Graph

variable {K D : Type} {g g' : Graph K D}

def skeleton (g : Graph K D) : Arena (Option (Formula K)) := g.arena.mapContent (·.formula)

theorem skeleton_of_frame (h : g'.frame = g.frame) : g'.skeleton = g.skeleton := by
  have hframe (g : Graph K D) : g.frame.mapContent (·.2) = g.skeleton := by
    simp [frame, skeleton, Arena.mapContent, Function.comp_def]
  rw [← hframe, h, hframe]

theorem formula?_of_skeleton (h : g'.skeleton = g.skeleton) : g'.formula? = g.formula? := by
  have hskeleton (g : Graph K D) (n : NodeId) : (g.skeleton.content? n).bind id = g.formula? n := by
    rw [skeleton, Arena.content?_mapContent, Option.bind_map]
    rfl
  funext n
  rw [← hskeleton, h, hskeleton]

theorem node?_of_skeleton (h : g'.skeleton = g.skeleton) {n : NodeId} {x : Node (Cell K D)}
    (hx : g.arena.node? n = some x) : ∃ y, g'.arena.node? n = some y ∧
      y.version = x.version ∧ y.children = x.children ∧ y.content.formula = x.content.formula := by
  have hnode := congrArg (fun a => a.node? n) h
  simp only [skeleton, Arena.node?_mapContent, hx, Option.map_some] at hnode
  obtain ⟨y, hy, heq⟩ := Option.map_eq_some_iff.mp hnode
  simp only [Node.mk.injEq] at heq
  exact ⟨y, hy, heq.2.2, heq.2.1, heq.1⟩

theorem Sound.congr (h : g.Sound) (hs : g'.skeleton = g.skeleton) : g'.Sound where
  linked := by
    intro n a ha
    rw [formula?_of_skeleton hs] at ha
    obtain ⟨x, hx, hchildren⟩ := Option.map_eq_some_iff.mp (h.linked n a ha)
    obtain ⟨y, hy, -, hsame, -⟩ := node?_of_skeleton hs hx
    rw [Arena.children?, hy, Option.map_some, hsame, hchildren]
  named := by
    rw [formula?_of_skeleton hs]
    exact h.named

theorem visitable_of {β : Label → Expression K} (hβ : ∀ n a, g.formula? n = some a →
    a.expression.NamedBy β) {n : NodeId} (hn : g.arena.contains n)
    (hf : ∀ a, g.formula? n = some a → g.Forgot a) : g.Visitable β n := ⟨hn, hβ n, hf⟩

variable [Zero K] [One K] [Add K] [Mul K] [MulAdd K] [Capacity K] [NatCast K] [Calculus K]
  {β : Label → Expression K}

theorem evaluateNode_settled {n : NodeId} (h : g.Visitable β n)
    (hn : Plan.Settles g.formula? g.value? n) :
    (evaluateNode n : GraphM K D Unit) g = some ((), g) := by
  obtain ⟨a, v, ha, hv, hvalue⟩ := hn
  obtain ⟨c, hc, hformula, -⟩ := h.cell_eq
  have hca : c.formula = some a := hformula.symm.trans ha
  rw [evaluateNode, run_bind, run_cell, hc, Option.map_some, Option.bind_some]
  simp only [hca]
  rw [evaluate_forget (h.named a ha) (h.forgot a ha), hv, Option.bind_some, run_modify,
    setValue_self hvalue]

theorem evaluateNodes_settled {ns : List NodeId} (h : ∀ n ∈ ns, g.Visitable β n)
    (hns : ∀ n ∈ ns, Plan.Settles g.formula? g.value? n) :
    (ns.forM evaluateNode : GraphM K D Unit) g = some ((), g) := by
  induction ns with
  | nil => rfl
  | cons n ns ih =>
    change (evaluateNode n >>= fun _ => ns.forM evaluateNode : GraphM K D Unit) g = _
    rw [run_bind, evaluateNode_settled (h n (List.mem_cons_self ..))
      (hns n (List.mem_cons_self ..))]
    exact ih (fun m hm => h m (List.mem_cons_of_mem n hm))
      fun m hm => hns m (List.mem_cons_of_mem n hm)

end Graph

namespace Program

section Plans

variable {K D : Type} {p q : Program D} {g g' : Graph K D} {plan : Plan}

theorem Current.congr (h : p.Current g plan) (hs : g'.skeleton = g.skeleton) :
    p.Current g' plan := by
  refine ⟨Plan.build_alike h.build fun n hn => ?_, h.kept⟩
  obtain ⟨x, hx⟩ := Arena.contains_iff.mp (h.describes.live n hn)
  obtain ⟨y, hy, hversion, hchildren, hformula⟩ := node?_of_skeleton hs hx
  exact ⟨x, y, hx, hy, .inr ⟨hversion.symm, hchildren.symm, congrArg Option.isSome hformula.symm⟩⟩

theorem Current.keep (h : p.Current g plan) :
    ({ p with state := .compiled plan } : Program D).Current g plan := ⟨h.build, .inr rfl⟩

end Plans

variable {K D : Type} [Zero K] [Add K] [Mul K] [MulAdd K] [Capacity K] [NatCast K]
  [Calculus K] {p q : Program D} {g g' : Graph K D} {plan : Plan} {β : Label → Expression K}

theorem Current.evaluate_eq (h : p.Current g plan) : p.evaluate g =
    ((plan.inner.forM evaluateNode : GraphM K D Unit) g).map fun r =>
      (({ p with state := .compiled plan }, .ok ()), r.2) := by
  refine (h.pass_run rfl _).trans ?_
  rw [run_bind, Option.map_bind, Option.map_eq_bind]
  rfl

variable [One K]

theorem Current.evaluate_run (h : p.Current g plan)
    (hv : ∀ n ∈ plan.inner, g.Visitable β n) :
    Option.Rel (fun ρ r => r.1 = ({ p with state := .compiled plan }, .ok ()) ∧ Revalues g ρ r)
      (plan.evaluateUnder g.formula? g.value?) (p.evaluate g) := by
  rw [h.evaluate_eq, Plan.evaluateUnder]
  have hnodes := evaluateNodes_run hv
  generalize plan.inner.foldlM (evaluateStep g.formula?) g.value? = x at hnodes ⊢
  generalize (plan.inner.forM evaluateNode : GraphM K D Unit) g = y at hnodes ⊢
  cases hnodes with
  | none => exact .none
  | some hr => exact .some ⟨rfl, hr⟩

theorem Current.evaluate_settled (h : p.Current g plan) (hv : ∀ n ∈ plan.inner, g.Visitable β n)
    (hconsistent : plan.Consistent g.formula? g.value?) :
    p.evaluate g = some (({ p with state := .compiled plan }, .ok ()), g) := by
  rw [h.evaluate_eq, evaluateNodes_settled hv hconsistent]
  rfl

theorem Current.evaluate_consistent (h : p.Current g plan) (hg : g.Sound)
    (hv : ∀ n ∈ plan.inner, g.Visitable β n) {r : Except Error Unit}
    (hrun : p.evaluate g = some ((q, r), g')) :
    q = { p with state := .compiled plan } ∧ r = .ok () ∧ OnlyValues g g' ∧
      (∀ m ∉ plan.inner, g'.value? m = g.value? m) ∧
      plan.Consistent g'.formula? g'.value? ∧ q.evaluate g' = some ((q, .ok ()), g') := by
  obtain ⟨_, hplain, hq, hvalues, rfl⟩ := rel_right (h.evaluate_run hv) hrun
  obtain ⟨rfl, rfl⟩ := Prod.mk.inj hq
  have hconsistent : plan.Consistent g'.formula? g'.value? := by
    rw [formula?_of_frame hvalues.frame]
    exact Plan.evaluateUnder_consistent (Plan.ordered_of_current h hg) hplain
  refine ⟨rfl, rfl, hvalues, fun m hm => Plan.evaluateUnder_other hplain hm, hconsistent, ?_⟩
  exact (h.congr (skeleton_of_frame hvalues.frame)).keep.evaluate_settled
    (fun n hn => (hv n hn).congrValues hvalues) hconsistent

/-- From any graph with the same formulas and the same values at the sources, evaluation
leads to the same values. -/
theorem Current.evaluate_from {h : Graph K D} (hp : p.Current g plan) (hg : g.Sound)
    (hs : h.skeleton = g.skeleton) (hv : ∀ n ∈ plan.inner, h.Visitable β n)
    {σ : NodeId → Option (Value K)} (hσ : plan.Consistent g.formula? σ)
    (hsources : ∀ s ∈ plan.outer, h.value? s = σ s) :
    ∃ h', p.evaluate h = some (({ p with state := .compiled plan }, .ok ()), h') ∧
      ∀ n ∈ plan.order, h'.value? n = σ n := by
  rw [← formula?_of_skeleton hs] at hσ
  have hcurrent := hp.congr hs
  obtain ⟨τ, hτ, hall⟩ :=
    Plan.evaluateUnder_eq (Plan.ordered_of_current hcurrent (hg.congr hs)) hσ hsources
  obtain ⟨⟨r, h'⟩, hrun, rfl, -, rfl⟩ := rel_left (hcurrent.evaluate_run hv) hτ
  exact ⟨h', hrun, hall⟩

theorem Current.evaluate_again (h : p.Current g plan) (hg : g.Sound)
    (hconfined : g.Confined Set.univ) (hrun : p.evaluate g = some ((q, .ok ()), g'))
    {q' : Program D} {g'' : Graph K D} {r : Except Error Unit}
    (hagain : q.evaluate g' = some ((q', r), g'')) :
    r = .ok () ∧ plan.Consistent g''.formula? g''.value? ∧
      q'.evaluate g'' = some ((q', .ok ()), g'') := by
  rw [h.evaluate_eq] at hrun
  obtain ⟨⟨_, g₁⟩, hnodes, hq⟩ := Option.map_eq_some_iff.mp hrun
  cases hq
  obtain ⟨hframe, hforgot⟩ := forgot_of_evaluateNodes hconfined hnodes
  have hskeleton := skeleton_of_frame hframe
  have hsound := hg.congr hskeleton
  obtain ⟨β, hβ⟩ := hsound.named
  have hinner : ∀ n ∈ plan.inner, g₁.Visitable β n := by
    intro n hn
    refine visitable_of hβ ?_ fun a ha => ?_
    · rw [contains_of_frame hframe]
      exact h.describes.live n (Plan.mem_inner.mp hn).1
    · exact hforgot n hn a (by rw [← formula?_of_frame hframe, ha])
  obtain ⟨rfl, rfl, -, -, hconsistent, hsettled⟩ :=
    (h.congr hskeleton).keep.evaluate_consistent hsound hinner hagain
  exact ⟨rfl, hconsistent, hsettled⟩

theorem evaluate_ok [Differential K D]
    (h : p.evaluate g = some ((q, .ok ()), g')) :
    ∃ plan, q.plan? = some plan ∧ (∀ n ∈ plan.order, g.arena.contains n) ∧
      (plan.inner.forM evaluateNode : GraphM K D Unit) g = some ((), g') ∧
      (p.Recent g → p.Current g plan) := by
  obtain ⟨⟨e, he⟩, -, -⟩ | ⟨p', plan, -, hready, -, hlive, hbody⟩ := run_cases (x := .evaluate) h
  · cases he
  obtain ⟨_, g₁, hnodes, hq⟩ := exists_of_bind hbody
  cases hq
  obtain ⟨-, hstate, -⟩ := ready_ok hready
  have hplan : q.plan? = some plan := by rw [plan?, hstate]
  rw [Plan.isLive, List.all_eq_true] at hlive
  exact ⟨plan, hplan, hlive, hnodes, fun hp => (current_iff_of_run (x := .evaluate) hp h).mpr hplan⟩

end Program

end GradientGraph
