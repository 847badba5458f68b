import GradientGraph.Proofs.Plan.Cut
import GradientGraph.Proofs.Program.Settled

/-!
# Evaluation in two parts

A plan from which nothing is held back can be worked off in two parts: first what is below
some of its nodes, then the rest, for which these are sources. Where the rest reaches nodes
below the cut by another way they are computed again, from what they were computed from
before. So the graph is in the end as if the plan had been worked off at once.
-/

set_option autoImplicit false

namespace GradientGraph

open GradientGraph.Graph

namespace Plan

/-- Two plans that share the work of a third. What the lower one only reads is not computed
at all, and what the upper one only reads is worked off by the lower one, or not computed
either. -/
structure Split (p below above : Plan) : Prop where
  inner : ∀ n, n ∈ p.inner ↔ n ∈ below.inner ∨ n ∈ above.inner
  sources : ∀ n ∈ below.outer, n ∉ p.inner
  seam : ∀ n ∈ above.outer, n ∈ below.order ∨ n ∉ p.inner

section Search

variable {α : Type} {a : Arena α} {computed : α → Bool} {targets bounds cut : NodeSet}
  {p below above : Plan} {n : NodeId}

theorem Orders.mem_inner (h : Orders a computed targets bounds p) :
    n ∈ p.inner ↔ Reaches a computed targets bounds n ∧ n ∉ bounds ∧
      ¬∃ x, a.node? n = some x ∧ computed x.content = false := by
  rw [Plan.mem_inner, h.members, h.sources, not_and, not_or]
  exact and_congr_right fun hn => ⟨fun hs => hs hn, fun hs _ => hs⟩

theorem split_of_cut (hp : Orders a computed targets .empty p)
    (hbelow : Orders a computed cut .empty below) (habove : Orders a computed targets cut above)
    (hcut : ∀ s ∈ cut, Reaches a computed targets .empty s) : p.Split below above where
  inner := by
    intro n
    rw [hp.mem_inner, hbelow.mem_inner, habove.mem_inner]
    constructor
    · rintro ⟨hn, hbounds, hx⟩
      by_cases hs : n ∈ cut
      · exact .inl ⟨.target hs, hbounds, hx⟩
      · rcases hn.above_or_below with hn | hn
        · exact .inr ⟨hn, hs, hx⟩
        · exact .inl ⟨hn, hbounds, hx⟩
    · rintro (⟨hn, hbounds, hx⟩ | ⟨hn, -, hx⟩)
      · exact ⟨hn.trans hcut, hbounds, hx⟩
      · exact ⟨hn.unbounded, NodeSet.not_mem_empty, hx⟩
  sources := by
    intro n hn hinner
    obtain ⟨-, hstops⟩ := (hbelow.sources n).mp (Plan.mem_outer.mp hn).2
    exact (hp.mem_inner.mp hinner).2.2 (hstops.resolve_left NodeSet.not_mem_empty)
  seam := by
    intro n hn
    obtain ⟨-, hs | hx⟩ := (habove.sources n).mp (Plan.mem_outer.mp hn).2
    · exact .inl ((hbelow.members n).mpr (.target hs))
    · exact .inr fun hinner => (hp.mem_inner.mp hinner).2.2 hx

end Search

section Valuations

variable {K : Type} [Zero K] [One K] [Add K] [Mul K] [MulAdd K] [Capacity K] [NatCast K]
  [Calculus K] {p below above : Plan} {φ : NodeId → Option (Formula K)}
  {ρ σ τ υ : NodeId → Option (Value K)}

theorem Settles.congr {n : NodeId} (h : Settles φ ρ n) (hn : σ n = ρ n)
    (hreads : ∀ a, φ n = some a → ∀ c ∈ a.expression.reads, σ c = ρ c) : Settles φ σ n := by
  obtain ⟨a, v, ha, hv, hρ⟩ := h
  refine ⟨a, v, ha, ?_, hn.trans hρ⟩
  rw [← hv]
  exact Expression.valueUnder_congr (hreads a ha)

/-- Nodes of the lower plan that the upper one computes again get what they have. -/
theorem Split.computed_again (h : p.Split below above) (hbelow : below.Ordered φ)
    (hτ : below.Consistent φ τ) (hυ : above.Consistent φ υ)
    (hother : ∀ n, n ∉ above.inner → υ n = τ n) : ∀ n ∈ below.order, υ n = τ n :=
  hτ.solves.again hbelow valueRule_local hυ.solves
    (fun n hn hinner => h.sources n hn ((h.inner n).mpr (.inr hinner))) hother

variable (h : p.Split below above) (hp : p.Ordered φ) (hbelow : below.Ordered φ)
  (habove : above.Ordered φ)
include h hp hbelow habove

theorem Split.evaluateUnder_of_whole (hσ : p.evaluateUnder φ ρ = some σ) :
    ∃ τ, below.evaluateUnder φ ρ = some τ ∧ above.evaluateUnder φ τ = some σ := by
  have hconsistent := evaluateUnder_consistent hp hσ
  obtain ⟨τ, hτ, hlower⟩ := evaluateUnder_eq hbelow (ρ := ρ)
    (fun n hn => hconsistent n ((h.inner n).mpr (.inl hn)))
    fun n hn => (evaluateUnder_other hσ (h.sources n hn)).symm
  -- what neither part works off has kept its value
  have hrest {n : NodeId} (hn : n ∉ p.inner) : τ n = σ n := by
    rw [evaluateUnder_other hτ fun hinner => hn ((h.inner n).mpr (.inl hinner)),
      evaluateUnder_other hσ hn]
  obtain ⟨υ, hυ, hupper⟩ := evaluateUnder_eq habove (ρ := τ)
    (fun n hn => hconsistent n ((h.inner n).mpr (.inr hn)))
    fun n hn => (h.seam n hn).elim (hlower n) hrest
  obtain rfl : υ = σ := by
    funext n
    by_cases hn : n ∈ above.inner
    · exact hupper n (mem_inner.mp hn).1
    · rw [evaluateUnder_other hυ hn]
      by_cases hinner : n ∈ p.inner
      · exact hlower n (mem_inner.mp (((h.inner n).mp hinner).resolve_right hn)).1
      · exact hrest hinner
  exact ⟨τ, hτ, hυ⟩

theorem Split.evaluateUnder_of_parts (hτ : below.evaluateUnder φ ρ = some τ)
    (hυ : above.evaluateUnder φ τ = some υ) : (p.evaluateUnder φ ρ).isSome := by
  have hlower := evaluateUnder_consistent hbelow hτ
  have hupper := evaluateUnder_consistent habove hυ
  have hagain := h.computed_again hbelow hlower hupper fun n => evaluateUnder_other hυ
  have hconsistent : p.Consistent φ υ := by
    intro n hn
    rcases (h.inner n).mp hn with hn | hn
    · exact (hlower n hn).congr (hagain n (mem_inner.mp hn).1) fun a ha c hc =>
        hagain c (hbelow.reads_order hn ha hc)
    · exact hupper n hn
  obtain ⟨σ, hσ, -⟩ := evaluateUnder_eq hp (ρ := ρ) hconsistent fun n hn => by
    have hn := outer_disjoint_inner hn
    rw [evaluateUnder_other hυ fun hinner => hn ((h.inner n).mpr (.inr hinner)),
      evaluateUnder_other hτ fun hinner => hn ((h.inner n).mpr (.inl hinner))]
  rw [hσ]
  rfl

/-- To work off the parts one after the other is to work off the whole. -/
theorem Split.evaluateUnder_eq :
    (below.evaluateUnder φ ρ).bind (above.evaluateUnder φ) = p.evaluateUnder φ ρ := by
  cases hσ : p.evaluateUnder φ ρ with
  | some σ =>
    obtain ⟨τ, hτ, hυ⟩ := h.evaluateUnder_of_whole hp hbelow habove hσ
    rw [hτ, Option.bind_some, hυ]
  | none =>
    rw [Option.bind_eq_none_iff]
    intro τ hτ
    by_contra hυ
    obtain ⟨υ, hυ⟩ := Option.ne_none_iff_exists'.mp hυ
    have hsome := h.evaluateUnder_of_parts hp hbelow habove hτ hυ
    rw [hσ] at hsome
    cases hsome

end Valuations

end Plan

namespace Program

section Plans

variable {K D : Type} {p q r : Program D} {g : Graph K D} {plan below above : Plan}

def Fresh (p : Program D) (g : Graph K D) : Prop :=
  ∀ made, p.plan? = some made → p.build g = .ok made

theorem Fresh.current (h : p.Fresh g) (hbuild : p.build g = .ok plan) : p.Current g plan := by
  refine ⟨hbuild, ?_⟩
  cases hmade : p.plan? with
  | none => exact .inl rfl
  | some made => exact .inr (congrArg some (Except.ok.inj ((h made hmade).symm.trans hbuild)))

theorem exists_split (hp : p.build g = .ok plan) (hsources : p.sources = .empty)
    (hq : q.sources = .empty) (htargets : r.targets = p.targets) (hr : r.sources = q.targets)
    (hcut : ∀ n ∈ q.targets, n ∈ plan.order) :
    ∃ below above, q.build g = .ok below ∧ r.build g = .ok above ∧ plan.Split below above := by
  rw [build, hsources] at hp
  rw [build, hq, build, htargets, hr]
  obtain ⟨below, hbelow⟩ := Plan.build_below hp hcut
  obtain ⟨above, habove⟩ := Plan.build_bounded hp q.targets
  have horders := Plan.build_orders hp
  exact ⟨below, above, hbelow, habove, Plan.split_of_cut horders (Plan.build_orders hbelow)
    (Plan.build_orders habove) fun n hn => (horders.members n).mp (hcut n hn)⟩

end Plans

variable {K D : Type} [Zero K] [One K] [Add K] [Mul K] [MulAdd K] [Capacity K] [NatCast K]
  [Calculus K] {p q r : Program D} {g : Graph K D} {plan below above : Plan}

/-- What evaluation of the two parts, one after the other, does to the values. -/
theorem Current.evaluate_parts (hq : q.Current g below) (hr : r.Current g above) (hg : g.Sound)
    (hb : g.Blank) :
    Option.Rel (fun σ x => x.1 = (({ q with state := .compiled below }, .ok ()),
        ({ r with state := .compiled above }, .ok ())) ∧ Revalues g σ x)
      ((below.evaluateUnder g.formula? g.value?).bind (above.evaluateUnder g.formula?))
      ((do let x ← q.evaluate
           let y ← r.evaluate
           return (x, y) : GraphM K D _) g) := by
  obtain ⟨β, hβ⟩ := hg.named
  have hlower := hq.visitable hb hβ
  have hupper := hr.visitable hb hβ
  rw [run_bind]
  refine rel_bind (hq.evaluate_run fun n hn => hlower n (Plan.mem_inner.mp hn).1) ?_
  rintro _ ⟨_, g₁⟩ ⟨rfl, hvalues, rfl⟩
  -- the formulas are the same after the first part, and nothing is remembered
  have hr₁ := hr.congr (skeleton_of_frame hvalues.frame)
  have hrun := hr₁.evaluate_run fun n hn =>
    (hupper n (Plan.mem_inner.mp hn).1).congrValues hvalues
  rw [formula?_of_frame hvalues.frame] at hrun
  rw [run_bind, ← Option.bind_fun_some (above.evaluateUnder _ _)]
  refine rel_bind hrun ?_
  rintro σ ⟨_, g₂⟩ ⟨rfl, hvalues₂, hσ⟩
  exact .some ⟨rfl, hvalues.trans hvalues₂, hσ⟩

variable [BEq K] [NumberText K] [Differential K D] [HostDerivative K D] {H : Set (Formula K)}
  {ps : List (Program D)}

/-- Evaluation in two parts. Take targets from which a search without sources makes a plan,
and any nodes of the plan. Evaluation of these without sources, and then of the targets with
these as their sources, leaves the graph that evaluation of the targets without sources
leaves, and meets a shape that does not fit exactly if it does. None of the three is refused. -/
theorem evaluate_partition (h : Settled g H ps) (hplan : p.build g = .ok plan) (hp : p.Fresh g)
    (hq : q.Fresh g) (hr : r.Fresh g) (hsources : p.sources = .empty)
    (hbelow : q.sources = .empty) (htargets : r.targets = p.targets)
    (habove : r.sources = q.targets) (hcut : ∀ n ∈ q.targets, n ∈ plan.order) :
    ∃ below above, q.build g = .ok below ∧ r.build g = .ok above ∧
      (∀ x ∈ p.evaluate g, x.1 = ({ p with state := .compiled plan }, .ok ())) ∧
      (do let x ← q.evaluate
          let y ← r.evaluate
          return (x, y) : GraphM K D _) g =
        (p.evaluate g).map fun x => ((({ q with state := .compiled below }, .ok ()),
          ({ r with state := .compiled above }, .ok ())), x.2) := by
  obtain ⟨below, above, hq', hr', hsplit⟩ :=
    exists_split hplan hsources hbelow htargets habove hcut
  have hsound := h.standing.orderly.sound
  obtain ⟨β, hβ⟩ := hsound.named
  have hp := hp.current hplan
  have hq := hq.current hq'
  have hr := hr.current hr'
  have hwhole := hp.evaluate_run fun n hn => hp.visitable h.blank hβ n (Plan.mem_inner.mp hn).1
  have hparts := hq.evaluate_parts hr hsound h.blank
  rw [hsplit.evaluateUnder_eq (Plan.ordered_of_current hp hsound)
    (Plan.ordered_of_current hq hsound) (Plan.ordered_of_current hr hsound)] at hparts
  refine ⟨below, above, hq', hr', fun x hx => (rel_right hwhole hx).choose_spec.2.1, ?_⟩
  -- both leave the same values, and change nothing else
  generalize plan.evaluateUnder g.formula? g.value? = σ at hwhole hparts
  generalize p.evaluate g = x at hwhole ⊢
  cases hwhole with
  | none => exact rel_none hparts
  | some hx =>
    obtain ⟨y, hy, hresult, hvalues, hsame⟩ := rel_left hparts rfl
    rw [hy, Option.map_some, hx.2.1.unique hvalues (hx.2.2.trans hsame.symm), ← hresult]

/-- A variable is computed from another one that it reads twice. The two are evaluated one
by one, and then at once. -/
theorem evaluate_partition_doubling :
    let g : Graph Float Float := (Doubling.computed .add 3).graph
    let p : Program Float := { Twice.program with state := .compiled Twice.plan }
    let q : Program Float := { targets := .ofList [Twice.source], sources := .empty }
    let r : Program Float := { targets := p.targets, sources := .ofList [Twice.source] }
    (∃ H, Settled g H [p]) ∧ p.build g = .ok Twice.plan ∧ p.sources = .empty ∧
      (∀ n ∈ q.targets, n ∈ Twice.plan.order) ∧
      ∃ below above g', p.evaluate g = some ((p, .ok ()), g') ∧
        (do let x ← q.evaluate
            let y ← r.evaluate
            return (x, y) : GraphM Float Float _) g =
          some ((({ q with state := .compiled below }, .ok ()),
            ({ r with state := .compiled above }, .ok ())), g') := by
  intro g p q r
  have h : Settled g _ [p] := .workbench (Doubling.unprobed (D := Float) .add 3)
  have hplan : p.build g = .ok Twice.plan := by
    obtain ⟨_, hstate, hcurrent, -⟩ :=
      current_of_compile (Doubling.compile_program (D := Float) .add (3 : Float) .absent)
    cases hstate
    exact hcurrent.build
  have hcut : ∀ n ∈ q.targets, n ∈ Twice.plan.order := by
    intro n hn
    obtain rfl := List.mem_singleton.mp hn
    exact List.mem_cons_self ..
  have hp : p.Fresh g := by
    rintro made hmade
    cases hmade
    exact hplan
  obtain ⟨below, above, -, -, -, hparts⟩ := evaluate_partition (q := q) (r := r) h hplan hp
    nofun nofun rfl rfl rfl rfl hcut
  have hrun : p.evaluate g = some ((p, .ok ()), _) := rfl
  rw [hrun, Option.map_some] at hparts
  exact ⟨⟨_, h⟩, hplan, rfl, hcut, below, above, _, hrun, hparts⟩

end Program

end GradientGraph
