import GradientGraph.Program.Pass
import GradientGraph.Proofs.Graph.Flow

/-!
# Visits of a pass

A differentiating pass reads values and formulas and changes derivatives. Each
kind of visit is a function of the derivatives that the variables hold. As long
as nothing is remembered of the formula that it works through, the visit leaves
what this function says and changes nothing else.
-/

set_option autoImplicit false

namespace GradientGraph

section Steps

variable {K D : Type} [Zero K] [One K] [Add K] [Mul K] [MulAdd K] [Capacity K] [NatCast K]
  [Calculus K] [Differential K D]

def sizeUnder (ρ : NodeId → Option (Value K)) (n : NodeId) : Nat := ((ρ n).map (·.size)).getD 0

def pushStep (ρ : NodeId → Option (Value K)) (φ : NodeId → Option (Formula K))
    (τ : NodeId → Option D) (n : NodeId) : Option (NodeId → Option D) :=
  match φ n with
  | none => some τ
  | some a => (a.expression.tangentUnder ρ τ).map fun t => Function.update τ n t

def pullStep (ρ : NodeId → Option (Value K)) (φ : NodeId → Option (Formula K))
    (τ : NodeId → Option D) (n : NodeId) : Option (NodeId → Option D) :=
  match φ n, τ n with
  | some a, some d => (a.expression.flows ρ d).bind (addFlows τ)
  | _, _ => some τ

def giveStep (f : NodeId → Option D) (τ : NodeId → Option D) (n : NodeId) :
    Option (NodeId → Option D) :=
  (f n).map fun d => Function.update τ n (some d)

def fillStep (f : NodeId → Option D) (τ : NodeId → Option D) (n : NodeId) :
    Option (NodeId → Option D) :=
  match τ n with
  | some _ => some τ
  | none => giveStep f τ n

end Steps

namespace Graph

section Forgetting

variable {K D : Type}

/-- Whether nothing is remembered of the parts of the formula. -/
def Forgot (g : Graph K D) (a : Formula K) : Prop :=
  (∀ p ∈ g.values, ¬a.labels.contains p.1) ∧ ∀ p ∈ g.tangents, ¬a.labels.contains p.1

/-- A node whose formula can be worked through from scratch. -/
structure Visitable (β : Label → Expression K) (g : Graph K D) (n : NodeId) : Prop where
  live : g.arena.contains n
  named : ∀ a, g.formula? n = some a → a.expression.NamedBy β
  forgot : ∀ a, g.formula? n = some a → g.Forgot a

/-- What a computation leaves behind that changes derivatives at most. -/
def Leaves {α : Type} (g : Graph K D) (τ : NodeId → Option D) (r : α × Graph K D) : Prop :=
  OnlyDerivatives g r.2 ∧ r.2.differential? = τ

variable {β : Label → Expression K} {g g' : Graph K D} {n : NodeId}

theorem Visitable.congr (h : g.Visitable β n) (hg : OnlyDerivatives g g') :
    g'.Visitable β n where
  live := by rw [contains_congr hg.statics, h.live]
  named := by
    rw [formula?_congr hg.statics]
    exact h.named
  forgot := by
    intro a ha
    rw [formula?_congr hg.statics] at ha
    rw [Forgot, hg.values, hg.tangents]
    exact h.forgot a ha

theorem Visitable.cell_eq (h : g.Visitable β n) :
    ∃ c, g.arena.content? n = some c ∧ g.formula? n = c.formula ∧
      g.differential? n = c.derivative.map (·.value) := by
  obtain ⟨x, hx⟩ := Arena.contains_iff.mp h.live
  have hc : g.arena.content? n = some x.content := by simp [Arena.content?, hx]
  exact ⟨x.content, hc, by simp [formula?, hc], by simp [differential?, derivative?, hc]⟩

theorem giveDerivative_run (hn : g.arena.contains n) (f : NodeId → Option D) :
    Option.Rel (Leaves g) (giveStep f g.differential? n)
      ((do giveDerivative n (← ofOption (f n)) : GraphM K D Unit) g) := by
  rw [giveStep, Option.map_eq_bind]
  apply rel_ofOption
  intro d
  refine .some ⟨⟨statics_setDerivative _ n _, rfl, rfl, rfl, Nat.le_succ _⟩, ?_⟩
  exact differential?_setDerivative (g := { g with nextStamp := g.nextStamp + 1 }) hn _

theorem fillDerivative_run [Differential K D] (hn : g.arena.contains n) {f : NodeId → Option D}
    {r c : Nat} (hf : f n = Differential.zeros r c) :
    Option.Rel (Leaves g) (fillStep f g.differential? n)
      ((fillDerivative n r c : GraphM K D Unit) g) := by
  rw [fillDerivative, run_bind, run_get, Option.bind_some, fillStep, differential?]
  cases g.derivative? n with
  | some d => exact .some ⟨.refl g, rfl⟩
  | none =>
    simp only [Option.map_none, ← hf]
    exact giveDerivative_run hn f

theorem clearDerivative_run (hn : g.arena.contains n) :
    Option.Rel (Leaves g) (some (Function.update g.differential? n none))
      ((clearDerivative n : GraphM K D Unit) g) :=
  .some ⟨.setDerivative g n none, differential?_setDerivative hn none⟩

theorem Leaves.after {α : Type} (h : OnlyDerivatives g g') {x : Option (NodeId → Option D)}
    {y : Option (α × Graph K D)} (hxy : Option.Rel (Leaves g') x y) :
    Option.Rel (Leaves g) x y := by
  cases hxy with
  | none => exact .none
  | some hr => exact .some ⟨h.trans hr.1, hr.2⟩

theorem Leaves.returning {α γ : Type} (f : α × Graph K D → γ) {x : Option (NodeId → Option D)}
    {y : Option (α × Graph K D)} (hxy : Option.Rel (Leaves g) x y) :
    Option.Rel (Leaves g) x (y.bind fun r => some (f r, r.2)) := by
  cases hxy with
  | none => exact .none
  | some hr => exact .some hr

/-- A loop of visits does to the derivatives what the steps of the visits do. -/
theorem loop_run {f : NodeId → GraphM K D Unit}
    {h : (NodeId → Option D) → NodeId → Option (NodeId → Option D)} (ns : List NodeId)
    {g : Graph K D} (hstep : ∀ n ∈ ns, ∀ g', OnlyDerivatives g g' →
      Option.Rel (Leaves g') (h g'.differential? n) (f n g')) :
    Option.Rel (Leaves g) (ns.foldlM h g.differential?) (ns.forM f g) := by
  induction ns generalizing g with
  | nil => exact .some ⟨.refl g, rfl⟩
  | cons n ns ih =>
    change Option.Rel _ _ ((f n >>= fun _ => ns.forM f) g)
    rw [List.foldlM_cons, run_bind]
    apply rel_bind (hstep n (List.mem_cons_self ..) g (.refl g))
    rintro _ ⟨_, g₁⟩ ⟨h₁ : OnlyDerivatives g g₁, rfl⟩
    exact Leaves.after h₁ (ih fun m hm g' hg' =>
      hstep m (List.mem_cons_of_mem n hm) g' (h₁.trans hg'))

theorem hasLabel_iff {a : Formula K} {l : Label} :
    a.expression.HasLabel l ↔ a.labels.contains l := by
  rw [Formula.labels, a.footprint_eq, Expression.HasLabel]

theorem filter_forgotten {α : Type} {a : Formula K} {new old : List (Label × α)}
    (hn : ∀ p ∈ new, a.expression.HasLabel p.1) (ho : ∀ p ∈ old, ¬a.labels.contains p.1) :
    (new ++ old).filter (fun p => !a.labels.contains p.1) = old := by
  have hnew : new.filter (fun p => !a.labels.contains p.1) = [] := by
    rw [List.filter_eq_nil_iff]
    intro p hp
    simp [hasLabel_iff.mp (hn p hp)]
  have hold : old.filter (fun p => !a.labels.contains p.1) = old := by
    rw [List.filter_eq_self]
    intro p hp
    simpa using ho p hp
  rw [List.filter_append, hnew, hold, List.nil_append]

variable [Zero K] [One K] [Add K] [Mul K] [MulAdd K] [Capacity K] [NatCast K] [Calculus K]

theorem Forgot.recallsValues {a : Formula K} (h : g.Forgot a) :
    g.RecallsValues β a.expression := by
  intro p hp hl
  exact absurd (hasLabel_iff.mp hl) (h.1 p hp)

/-- Forgetting takes back all that was learned from a formula that was forgotten. -/
theorem Spills.forget {a : Formula K} (h : Spills β a.expression g g') (hf : g.Forgot a) :
    OnlyDerivatives g (g'.forget a) := by
  obtain ⟨vs, hvs, hv⟩ := h.values
  obtain ⟨ts, hts, ht⟩ := h.tangents
  refine ⟨h.statics, ?_, ?_, h.label, h.stamp⟩
  · rw [Graph.forget, hv]
    exact filter_forgotten (fun p hp => (hvs p hp).1) hf.1
  · rw [Graph.forget, ht]
    exact filter_forgotten hts hf.2

variable [Differential K D]

theorem Forgot.recallsTangents {a : Formula K} (h : g.Forgot a) :
    g.RecallsTangents β a.expression := by
  intro p hp hl
  exact absurd (hasLabel_iff.mp hl) (h.2 p hp)

end Forgetting

section Visits

variable {K D : Type} [Zero K] [One K] [Add K] [Mul K] [MulAdd K] [Capacity K] [NatCast K]
  [Calculus K] [Differential K D] {β : Label → Expression K} {g : Graph K D} {n : NodeId}

theorem pushForwardNode_run (h : g.Visitable β n) :
    Option.Rel (Leaves g) (pushStep g.value? g.formula? g.differential? n)
      ((pushForwardNode n : GraphM K D Unit) g) := by
  obtain ⟨c, hc, hformula, _⟩ := h.cell_eq
  rw [pushForwardNode, run_bind, run_cell, hc, Option.map_some, Option.bind_some, pushStep,
    hformula]
  cases ha : c.formula with
  | none => exact .some ⟨.refl g, rfl⟩
  | some a =>
    have hf := h.forgot a (hformula.trans ha)
    simp only
    rw [run_bind, Option.map_eq_bind]
    apply rel_bind (Expression.pushForward_run (h.named a (hformula.trans ha))
      hf.recallsValues hf.recallsTangents)
    rintro _ ⟨t, g₁⟩ ⟨rfl, h₁ : Learns β a.expression g g₁⟩
    have hg₁ := h₁.spills.forget hf
    refine .some ⟨hg₁.trans (.setDerivative _ n t), ?_⟩
    have hlive : (g₁.forget a).arena.contains n := by
      rw [contains_congr hg₁.statics, h.live]
    rw [← h₁.differential?_eq]
    exact differential?_setDerivative hlive t

theorem pullBackNode_run (h : g.Visitable β n) :
    Option.Rel (Leaves g) (pullStep g.value? g.formula? g.differential? n)
      ((pullBackNode n : GraphM K D Unit) g) := by
  obtain ⟨c, hc, hformula, hderivative⟩ := h.cell_eq
  rw [pullBackNode, run_bind, run_cell, hc, Option.map_some, Option.bind_some, pullStep,
    hformula, hderivative]
  cases ha : c.formula with
  | none => exact .some ⟨.refl g, rfl⟩
  | some a =>
    cases hd : c.derivative with
    | none => exact .some ⟨.refl g, rfl⟩
    | some d =>
      have hf := h.forgot a (hformula.trans ha)
      have hrun := Expression.pullBack_run (h.named a (hformula.trans ha))
        hf.recallsValues d.value
      simp only [Option.map_some]
      rw [run_bind]
      generalize (a.expression.flows g.value? d.value).bind (addFlows g.differential?) = x
        at hrun ⊢
      generalize (a.expression.pullBack d.value : GraphM K D Unit) g = y at hrun ⊢
      cases hrun with
      | none => exact .none
      | some hr => exact .some ⟨hr.2.forget hf, hr.1⟩

end Visits

end Graph

end GradientGraph
