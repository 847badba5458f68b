import GradientGraph.Proofs.Plan.Order
import GradientGraph.Proofs.Program.Plain

/-!
# Passes of a program

A program whose plan is the one that the graph gives rise to passes every check,
and its passes do to the derivatives what the plain ones do.
-/

set_option autoImplicit false

namespace GradientGraph

namespace Graph

variable {K D : Type}

/-- What holds of every graph that is only changed through its operations: edges
are those of the formulas, and no two parts share a label. -/
structure Sound (g : Graph K D) : Prop where
  linked : ∀ n a, g.formula? n = some a → g.arena.children? n = some a.children
  named : ∃ β : Label → Expression K, ∀ n a, g.formula? n = some a → a.expression.NamedBy β

def Blank (g : Graph K D) : Prop := g.values = [] ∧ g.tangents = []

theorem Blank.forgot {g : Graph K D} (h : g.Blank) (a : Formula K) : g.Forgot a := by
  rw [Forgot, h.1, h.2]
  simp

theorem Blank.visitable {g : Graph K D} (h : g.Blank) {β : Label → Expression K}
    (hβ : ∀ n a, g.formula? n = some a → a.expression.NamedBy β) {plan : Plan}
    (hlive : plan.isLive g.arena = true) : plan.Visitable β g := by
  rw [Plan.isLive, List.all_eq_true] at hlive
  exact fun n hn => ⟨hlive n hn, hβ n, fun a _ => h.forgot a⟩

theorem stops_iff {g : Graph K D} {bounds : NodeSet} {n : NodeId}
    (hn : g.arena.contains n) :
    Plan.Stops g.arena (·.formula.isSome) bounds n ↔ n ∈ bounds ∨ g.formula? n = none := by
  obtain ⟨x, hx⟩ := Arena.contains_iff.mp hn
  simp [Plan.Stops, formula?, Arena.content?, hx]

end Graph

namespace Program

open GradientGraph.Graph

variable {K D : Type} {p : Program D} {g : Graph K D} {plan : Plan}

/-- Whether the plan is what the graph gives rise to, and no other was made before. -/
structure Current (p : Program D) (g : Graph K D) (plan : Plan) : Prop where
  build : p.build g = .ok plan
  kept : p.plan? = none ∨ p.plan? = some plan

theorem Current.describes (h : p.Current g plan) :
    plan.Describes g.arena (·.formula.isSome) p.targets p.sources := Plan.build_describes h.build

theorem Current.ready (h : p.Current g plan) :
    p.ready g = ({ p with state := .compiled plan }, .ok plan) := by
  have hfresh : plan.isFresh g.arena = true := by
    rw [Plan.isFresh, List.all_eq_true]
    intro q hq
    simpa using h.describes.versions q hq
  obtain ⟨targets, sources, state, seeds⟩ := p
  cases state with
  | absent =>
    have hbuild := h.build
    simp only [Program.build] at hbuild
    simp [Program.ready, compile, Program.build, hbuild, hfresh]
  | failed e =>
    have hbuild := h.build
    simp only [Program.build] at hbuild
    simp [Program.ready, compile, Program.build, hbuild, hfresh]
  | compiled q =>
    have hq : q = plan := by simpa [plan?] using h.kept
    subst hq
    simp [Program.ready, hfresh]

theorem Current.live (h : p.Current g plan) : plan.isLive g.arena = true := by
  rw [Plan.isLive, List.all_eq_true]
  exact h.describes.live

theorem Current.sources_iff (h : p.Current g plan) {n : NodeId} :
    n ∈ plan.sources ↔ n ∈ plan.order ∧ (n ∈ p.sources ∨ g.formula? n = none) := by
  rw [h.describes.sources]
  constructor
  · rintro ⟨hn, hs⟩
    exact ⟨hn, (stops_iff (h.describes.live n hn)).mp hs⟩
  · rintro ⟨hn, hs⟩
    exact ⟨hn, (stops_iff (h.describes.live n hn)).mpr hs⟩

theorem Current.mem_outer_iff (h : p.Current g plan) {n : NodeId} :
    n ∈ plan.outer ↔ n ∈ plan.sources :=
  Plan.mem_outer.trans (and_iff_right_of_imp fun hs => (h.sources_iff.mp hs).1)

theorem current_of_compile {f : Program D} (h : p.compile g = (f, .ok ())) :
    ∃ plan, f.state = .compiled plan ∧ f.Current g plan ∧ f.targets = p.targets := by
  unfold compile at h
  cases hbuild : p.build g with
  | error e => simp [hbuild] at h
  | ok plan =>
    obtain rfl : _ = f := by simpa [hbuild] using h
    exact ⟨plan, rfl, ⟨hbuild, .inr rfl⟩, rfl⟩

theorem Current.visitable (h : p.Current g plan) (hb : g.Blank) {β : Label → Expression K}
    (hβ : ∀ n a, g.formula? n = some a → a.expression.NamedBy β) : plan.Visitable β g :=
  hb.visitable hβ h.live

/-- What a pass comes down to, the arena being borrowed only while it is looked at. -/
theorem pass_eq (p : Program D) (check : Plan → Except Error Unit)
    (body : Program D → Plan → GraphM K D (Program D)) (g : Graph K D) :
    p.pass check body g =
      match p.ready g with
      | (q, .error e) => some ((q, .error e), g)
      | (q, .ok plan) =>
        match check plan with
        | .error e => some ((q, .error e), g)
        | .ok () =>
          if plan.isLive g.arena then (body q plan g).map fun r => ((r.1, .ok ()), r.2)
          else some ((q, .error .nodeNotIndexed), g) := by
  rw [pass, run_bind, run_look, Option.bind_some]
  change (match p.ready g with | (q, .error e) => _ | (q, .ok plan) => _ : GraphM K D _) g = _
  cases p.ready g with
  | mk q made =>
    cases made with
    | error e => rfl
    | ok plan =>
      simp only
      cases check plan with
      | error e => rfl
      | ok _ =>
        simp only [run_bind, run_look, Option.bind_some]
        split
        · rw [run_bind, Option.map_eq_bind]
          rfl
        · rfl

theorem Current.pass_run (h : p.Current g plan) {check : Plan → Except Error Unit}
    (hcheck : check plan = .ok ()) (body : Program D → Plan → GraphM K D (Program D)) :
    p.pass check body g =
      (body { p with state := .compiled plan } plan g).map fun r => ((r.1, .ok ()), r.2) := by
  rw [pass_eq, h.ready]
  simp only [hcheck, h.live, if_true]

def Succeeds (g : Graph K D) (τ : NodeId → Option D)
    (r : (Program D × Except Error Unit) × Graph K D) : Prop :=
  r.1.2 = .ok () ∧ Leaves g τ r

theorem Current.succeeds (h : p.Current g plan) {check : Plan → Except Error Unit}
    (hcheck : check plan = .ok ()) {body : Program D → Plan → GraphM K D (Program D)}
    {τ : Option (NodeId → Option D)}
    (hbody : Option.Rel (Leaves g) τ (body { p with state := .compiled plan } plan g)) :
    Option.Rel (Succeeds g) τ (p.pass check body g) := by
  rw [h.pass_run hcheck]
  generalize body { p with state := .compiled plan } plan g = x at hbody ⊢
  cases hbody with
  | none => exact .none
  | some hr => exact .some ⟨rfl, hr⟩

theorem restoreSeeds_onlyDerivatives (plan : Plan) (seeds : List (Seed D)) (g : Graph K D) :
    OnlyDerivatives g (plan.restoreSeeds seeds g) := by
  induction seeds generalizing g with
  | nil => exact .refl g
  | cons s seeds ih =>
    have hseed : OnlyDerivatives g (plan.restoreSeed s g) := by
      unfold Plan.restoreSeed
      split
      · split
        · split
          · exact .setDerivative g _ _
          · exact .refl g
        · exact .refl g
      · exact .refl g
    exact hseed.trans (ih _)

variable [Zero K] [One K] [Add K] [Mul K] [MulAdd K] [Capacity K] [NatCast K] [Calculus K]
  [Differential K D] {β : Label → Expression K}

theorem pushTangent_run (h : p.Current g plan) (hv : plan.Visitable β g) :
    Option.Rel (Succeeds g) (plan.forwardUnder g.value? g.formula? g.differential?)
      (p.pushTangent g) := by
  apply h.succeeds rfl
  rw [run_bind]
  exact Leaves.returning (fun _ => _) (Plan.forward_run hv)

theorem pushTangentAt_run (h : p.Current g plan) (hv : plan.Visitable β g) {s : NodeId}
    (hs : s ∈ plan.sources) :
    Option.Rel (Succeeds g)
      ((plan.outer.foldlM (giveStep (Plan.sourceSeed g.value? s)) g.differential?).bind
        (plan.forwardUnder g.value? g.formula?))
      (p.pushTangentAt s g) := by
  apply h.succeeds (if_pos hs)
  rw [run_bind]
  apply rel_bind (Plan.seedSources_run hv s)
  rintro _ ⟨_, g₁⟩ ⟨h₁ : OnlyDerivatives g g₁, rfl⟩
  rw [← value?_congr h₁.statics, ← formula?_congr h₁.statics, run_bind]
  exact Leaves.returning (fun _ => _) (Leaves.after h₁ (Plan.forward_run (hv.congr h₁)))

theorem pullGradient_run (h : p.Current g plan) (hv : plan.Visitable β g) :
    Option.Rel (Succeeds g)
      (plan.backwardUnder p.targets g.value? g.formula?
        (plan.restoreSeeds p.seeds g).differential?)
      (p.pullGradient g) := by
  have h₁ := restoreSeeds_onlyDerivatives plan p.seeds g
  apply h.succeeds rfl
  rw [run_bind, run_modify, Option.bind_some, ← value?_congr h₁.statics,
    ← formula?_congr h₁.statics, run_bind]
  exact Leaves.returning (fun _ => _)
    (Leaves.after h₁ (Plan.backward_run (hv.congr h₁) p.targets))

theorem pullGradientAt_run (h : p.Current g plan) (hv : plan.Visitable β g) {t : NodeId}
    (ht : t ∈ p.targets) :
    Option.Rel (Succeeds g)
      (((plan.order.filter (· ∈ p.targets)).foldlM (giveStep (Plan.targetSeed g.value? t))
        g.differential?).bind (plan.backwardUnder p.targets g.value? g.formula?))
      (p.pullGradientAt t g) := by
  apply h.succeeds (if_pos ht)
  rw [run_bind]
  apply rel_bind (Plan.seedTargets_run (fun n hn => (hv n hn).live) p.targets t)
  rintro _ ⟨_, g₁⟩ ⟨h₁ : OnlyDerivatives g g₁, rfl⟩
  rw [← value?_congr h₁.statics, ← formula?_congr h₁.statics, run_bind]
  exact Leaves.returning (fun _ => _)
    (Leaves.after h₁ (Plan.backward_run (hv.congr h₁) p.targets))

end Program

end GradientGraph
