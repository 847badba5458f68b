import GradientGraph.Proofs.Derivative.Program
import GradientGraph.Proofs.Program.Setting

/-!
# Reverse passes one after the other

A reverse pass starts from what the targets hold once the seeds of the pass before are
put back. A target that held a derivative then is put back to it by the next pass, and so
the next pass starts where this one did. A target that held none keeps what flowed into
it, and the next pass takes that for its seed.
-/

set_option autoImplicit false

namespace GradientGraph

open GradientGraph.Graph

namespace Pass

variable {K D : Type} [Differential K D]

theorem works_begin (x : Pass) {S : Set Nat} {p : Program D} (hp : seedStamps p.seeds ⊆ S)
    (plan : Plan) : Labours S Set.univ (x.begin p plan : GraphM K D Unit) := by
  cases x with
  | pullGradient => exact plan.works_restoreSeeds hp
  | pullGradientAt t => exact plan.works_seedTargets p.targets t
  | _ => exact works_pure (Set.empty_subset S)

theorem begin_onlyDerivatives (x : Pass) {p : Program D} {plan : Plan} {g g₀ : Graph K D}
    {u : Unit} (hlive : ∀ n ∈ plan.order, g.arena.contains n)
    (h : x.begin p plan g = some (u, g₀)) : OnlyDerivatives g g₀ := by
  cases x with
  | pullGradient =>
    cases h
    exact Program.restoreSeeds_onlyDerivatives plan p.seeds g
  | pullGradientAt t =>
    obtain ⟨_, -, hg₀, -⟩ := rel_right (Plan.seedTargets_run hlive p.targets t) h
    exact hg₀
  | _ =>
    cases h
    exact .refl g

end Pass

namespace Plan

variable {K D : Type} [Zero K] [One K] [Add K] [Mul K] [MulAdd K] [Capacity K] [NatCast K]
  [Calculus K] [Differential K D] {plan : Plan} {targets : NodeSet} {g g' : Graph K D}
  {ρ : NodeId → Option (Value K)} {φ : NodeId → Option (Formula K)} {τ τ' : NodeId → Option D}
  {n : NodeId}

theorem pullStep_other {m : NodeId} (h : pullStep ρ φ τ m = some τ')
    (hn : ∀ a, φ m = some a → n ∉ a.expression.reads) : τ' n = τ n := by
  unfold pullStep at h
  split at h
  · rename_i a d ha _
    obtain ⟨ps, hps, hadd⟩ := Option.bind_eq_some_iff.mp h
    refine addFlows_other hadd fun q hq hqn => hn a ha ?_
    rw [← hqn]
    exact Expression.mem_reads_of_flows hps q hq
  · cases h
    rfl

theorem fillStep_other {f : NodeId → Option D} {m : NodeId} (h : fillStep f τ m = some τ')
    (hn : n ≠ m) : τ' n = τ n := by
  unfold fillStep at h
  split at h
  · cases h
    rfl
  · obtain ⟨d, -, rfl⟩ := Option.map_eq_some_iff.mp h
    exact Function.update_of_ne hn _ _

theorem backwardUnder_other (ho : plan.Ordered φ)
    (h : plan.backwardUnder targets ρ φ τ = some τ') (hn : n ∉ plan.order) : τ' n = τ n := by
  obtain ⟨σ, hpull, hfill⟩ := Option.bind_eq_some_iff.mp h
  have hfill := foldlM_same (· n) hfill fun m hm σ σ' hσ =>
    fillStep_other hσ (by
      rintro rfl
      exact hn hm)
  have hpull := foldlM_same (· n) hpull fun m hm σ σ' hσ =>
    pullStep_other hσ fun a ha hread =>
      hn (ho.reads_order (List.mem_reverse.mp hm) ha hread)
  have hcleared : plan.cleared targets τ n = τ n := if_neg fun h => hn h.1
  exact hfill.trans (hpull.trans hcleared)

/-- What a reverse pass leaves depends on what it starts from at the targets and outside
the plan only. -/
theorem cleared_congr (htargets : ∀ t ∈ targets, τ t = τ' t)
    (houtside : ∀ n, n ∉ plan.order → τ n = τ' n) :
    plan.cleared targets τ = plan.cleared targets τ' := by
  funext n
  unfold cleared
  split
  · rfl
  · rename_i h
    by_cases hn : n ∈ plan.order
    · exact htargets n (by simpa [hn] using h)
    · exact houtside n hn

/-- After a pass from seeds at all targets, a pass from the same seeds finds nothing to
change. -/
theorem backward_again {β : Label → Expression K} {S : Set Nat} {seeds : List (Seed D)}
    (ho : plan.Ordered g.formula?) (hv : plan.Visitable β g) (hg : g.Dated S)
    (htargets : ∀ t ∈ targets, t ∈ plan.order)
    (hseeded : ∀ t ∈ targets, (g.derivative? t).isSome)
    (h : plan.backward targets g = some (seeds, g')) :
    plan.backwardUnder targets g'.value? g'.formula? (plan.restoreSeeds seeds g').differential? =
      some g'.differential? := by
  obtain ⟨-, -, rfl, hfilled⟩ := backward_record hg h
  obtain ⟨_, hunder, hg', rfl⟩ := rel_right (backward_run hv targets) h
  rw [value?_congr hg'.statics, formula?_congr hg'.statics, ← hunder]
  have hsame : plan.cleared targets
      (plan.restoreSeeds (plan.record targets g g') g').differential? =
      plan.cleared targets g.differential? := by
    refine cleared_congr (fun t ht => ?_) fun n hn => ?_
    · have hend := hfilled t (htargets t ht) (hv t (htargets t ht)).live
      obtain ⟨d, hd⟩ := Option.isSome_iff_exists.mp (hseeded t ht)
      rw [differential?, derivative?_restoreSeeds (htargets t ht),
        resumed_record ho.nodup (htargets t ht) ht hend, differential?, hd]
      rfl
    · rw [differential?, derivative?_restoreSeeds_outside hn]
      exact backwardUnder_other ho hunder hn
  unfold backwardUnder
  rw [hsame]

end Plan

namespace Program

variable {K D : Type} [Zero K] [One K] [Add K] [Mul K] [MulAdd K] [Capacity K] [NatCast K]
  [Calculus K] [Differential K D] {p q : Program D} {g g' : Graph K D} {x : Pass}

theorem reverse_cases (hx : x.Reverse) (hp : p.Remembers g)
    (h : x.run p g = some ((q, .ok ()), g')) :
    ∃ plan g₀ seeds, q = { p with state := .compiled plan, seeds } ∧ plan.order.Nodup ∧
      (∀ t ∈ p.targets, t ∈ plan.order) ∧ (∀ n ∈ plan.order, g.arena.contains n) ∧
      x.begin p plan g = some ((), g₀) ∧ plan.backward p.targets g₀ = some (seeds, g') := by
  obtain ⟨⟨e, he⟩, -, -⟩ | ⟨p', plan, -, hready, -, hlive, hbody⟩ := run_cases h
  · cases he
  obtain rfl := ready_state hready
  obtain ⟨g₁, hages, hbuild⟩ : ∃ g₁ : Graph K D, g₁.Ages g ∧ p.build g₁ = .ok plan := by
    have hremembers := remembers_ready hp
    rw [hready] at hremembers
    exact hremembers plan rfl
  have hdescribes := Plan.build_describes hbuild
  rw [hx.body_eq] at hbody
  obtain ⟨_, g₀, hbegin, hbody⟩ := exists_of_bind hbody
  obtain ⟨seeds, _, hbackward, hbody⟩ := exists_of_bind hbody
  cases hbody
  rw [Plan.isLive, List.all_eq_true] at hlive
  refine ⟨plan, g₀, seeds, rfl, hdescribes.nodup, hdescribes.targets, hlive, ?_, hbackward⟩
  cases hx <;> exact hbegin

/-- After a reverse pass every target holds a derivative, and is put back by the next to
the one that it held when this one went backwards, if it held one. -/
theorem reverse_resumes {S : Set Nat} (hx : x.Reverse) (hp : p.Remembers g) (hg : g.Dated S)
    (hseeds : seedStamps p.seeds ⊆ S) (h : x.run p g = some ((q, .ok ()), g')) :
    ∃ plan g₀, q.plan? = some plan ∧ q.targets = p.targets ∧
      (∀ n ∈ plan.order, g.arena.contains n) ∧ x.begin p plan g = some ((), g₀) ∧
      ∀ t ∈ p.targets, t ∈ plan.order ∧ (g'.derivative? t).isSome ∧
        resumed q.seeds t (g'.derivative? t) = (g₀.derivative? t).or (g'.derivative? t) := by
  obtain ⟨plan, g₀, seeds, rfl, hnodup, htargets, hlive, hbegin, hbackward⟩ :=
    reverse_cases hx hp h
  obtain ⟨htouched, hg₀⟩ := x.works_begin hseeds plan g () g₀ hg hbegin
  obtain ⟨-, -, rfl, hfilled⟩ := Plan.backward_record hg₀ hbackward
  refine ⟨plan, g₀, rfl, rfl, hlive, hbegin, fun t ht => ?_⟩
  have horder := htargets t ht
  have hend := hfilled t horder (contains_of_skeleton htouched.skeleton (hlive t horder))
  exact ⟨horder, hend, Plan.resumed_record hnodup horder ht hend⟩

theorem reverse_leaves {S : Set Nat} (hx : x.Reverse) (hg : g.Sound) (hdated : g.Dated S)
    (hseeds : seedStamps p.seeds ⊆ S) (hp : p.Recent g)
    (h : x.run p g = some ((q, .ok ()), g')) {plan : Plan} (hplan : q.plan? = some plan)
    (hforgot : ∀ n ∈ plan.order, ∀ a, g.formula? n = some a → g.Forgot a) :
    OnlyDerivatives g g' ∧ g'.Sound ∧ q.Current g' plan ∧
      ((∀ g₀, x.begin p plan g = some ((), g₀) → ∀ t ∈ p.targets, (g₀.derivative? t).isSome) →
        plan.backwardUnder q.targets g'.value? g'.formula?
          (plan.restoreSeeds q.seeds g').differential? = some g'.differential?) := by
  have hcurrent := (current_iff_of_run hp h).mpr hplan
  obtain ⟨made, g₀, seeds, rfl, -, htargets, hlive, hbegin, hbackward⟩ :=
    reverse_cases hx hp.remembers h
  obtain rfl : made = plan := Option.some.inj hplan
  obtain ⟨β, hβ⟩ := hg.named
  have hv : made.Visitable β g := fun n hn => ⟨hlive n hn, hβ n, hforgot n hn⟩
  have hg₀ := x.begin_onlyDerivatives hlive hbegin
  have ho₀ : made.Ordered g₀.formula? := by
    rw [formula?_congr hg₀.statics]
    exact Plan.ordered_of_current hcurrent hg
  obtain ⟨htouched, hdated₀⟩ := x.works_begin hseeds made g () g₀ hdated hbegin
  obtain ⟨_, -, hg', -⟩ := rel_right (Plan.backward_run (hv.congr hg₀) p.targets) hbackward
  have hskeleton : g'.skeleton = g.skeleton := by
    rw [(Plan.backward_record hdated₀ hbackward).1.skeleton, htouched.skeleton]
  refine ⟨hg₀.trans hg', hg.congr hskeleton, ⟨(hcurrent.congr hskeleton).build, .inr rfl⟩, ?_⟩
  exact fun hseeded =>
    Plan.backward_again ho₀ (hv.congr hg₀) hdated₀ htargets (hseeded g₀ hbegin) hbackward

theorem pullGradient_again {S : Set Nat} (hx : x.Reverse) (hg : g.Sound) (hdated : g.Dated S)
    (hseeds : seedStamps p.seeds ⊆ S) (hp : p.Recent g)
    (h : x.run p g = some ((q, .ok ()), g')) {plan : Plan} (hplan : q.plan? = some plan)
    (hforgot : ∀ n ∈ plan.order, ∀ a, g.formula? n = some a → g.Forgot a)
    (hseeded : ∀ g₀, x.begin p plan g = some ((), g₀) →
      ∀ t ∈ p.targets, (g₀.derivative? t).isSome) :
    ∃ q' g'', Pass.pullGradient.run q g' = some ((q', .ok ()), g'') ∧
      g''.differential? = g'.differential? := by
  obtain ⟨honly, hg', hcurrent, hagain⟩ :=
    reverse_leaves hx hg hdated hseeds hp h hplan hforgot
  obtain ⟨β, hβ⟩ := hg'.named
  have hv : plan.Visitable β g' := fun n hn => by
    refine ⟨hcurrent.describes.live n hn, hβ n, fun a ha => ?_⟩
    rw [Forgot, honly.values, honly.tangents]
    exact hforgot n hn a (by rwa [formula?_congr honly.statics] at ha)
  have hrun := pullGradient_run hcurrent hv
  rw [hagain hseeded] at hrun
  obtain ⟨⟨⟨q', r⟩, g''⟩, hpull, hok, -, hdifferential⟩ := rel_left hrun rfl
  obtain rfl : r = .ok () := hok
  exact ⟨q', g'', hpull, hdifferential⟩

end Program

namespace Setting

variable {K D : Type} [Zero K] [One K] [Add K] [Mul K] [MulAdd K] [Capacity K] [NatCast K]
  [Calculus K] [BEq K] [NumberText K] [Differential K D] [HostDerivative K D]
  {s : Setting K D} {f : ProgramKey} {p q : Program D} {g₁ : Graph K D}

/-- A reverse pass is followed by another. The second starts, at each target, from what
the first started from there, and where that was nothing from what the first left. If
nothing is remembered of the formulas of the plan, this has two consequences. If all
targets held a derivative when the first pass went backwards, the second ends well and
changes no derivative. And what flowed into other targets counts as a seed once and for
all: whatever the second pass changes, a third ends well and changes nothing more. -/
theorem pullGradient_repeats (h : s.Reachable) (hyoung : s.graph.Young)
    (hp : s.program? f = some p)
    (hrun : Pass.pullGradient.run p s.graph = some ((q, .ok ()), g₁)) :
    ∃ plan, q.plan? = some plan ∧
      (∀ t ∈ p.targets, (plan.restoreSeeds q.seeds g₁).derivative? t =
        ((plan.restoreSeeds p.seeds s.graph).derivative? t).or (g₁.derivative? t)) ∧
      ((∀ n ∈ plan.order, ∀ a, s.graph.formula? n = some a → s.graph.Forgot a) →
        ((∀ t ∈ p.targets, ((plan.restoreSeeds p.seeds s.graph).derivative? t).isSome) →
          ∃ q₂ g₂, Pass.pullGradient.run q g₁ = some ((q₂, .ok ()), g₂) ∧
            g₂.differential? = g₁.differential?) ∧
        ∀ q₂ g₂, Pass.pullGradient.run q g₁ = some ((q₂, .ok ()), g₂) →
          ∃ q₃ g₃, Pass.pullGradient.run q₂ g₂ = some ((q₃, .ok ()), g₃) ∧
            g₃.differential? = g₂.differential?) := by
  have hx := Pass.Reverse.pullGradient
  have hrecent := (h.remembers hp).recent hyoung
  have hseeds : seedStamps p.seeds ⊆ s.scene.stamps := Scene.seedStamps_subset hp
  have hwhole : s.graph.Whole s.scene.stamps s.nodes := h.whole
  have hwhole₁ := (Pass.pullGradient.run_whole hwhole hseeds hrun).2
  obtain ⟨plan, g₀, hplan, htargets, -, hbegin, hresumes⟩ :=
    Program.reverse_resumes hx hrecent.remembers hwhole.dated hseeds hrun
  -- what it begins with is the graph with the seeds put back
  cases hbegin
  refine ⟨plan, hplan, fun t ht => ?_, fun hforgot => ⟨fun hseeded => ?_, ?_⟩⟩
  · obtain ⟨horder, -, hresumed⟩ := hresumes t ht
    rw [Plan.derivative?_restoreSeeds horder, hresumed]
  · refine Program.pullGradient_again hx h.sound hwhole.dated hseeds hrecent hrun hplan hforgot ?_
    intro g₀ hbegin
    cases hbegin
    exact hseeded
  · intro q₂ g₂ hagain
    obtain ⟨honly, hsound, hcurrent, -⟩ :=
      Program.reverse_leaves hx h.sound hwhole.dated hseeds hrecent hrun hplan hforgot
    have hplan₂ := (Program.current_iff_of_run hcurrent.recent hagain).mp hcurrent
    refine Program.pullGradient_again hx hsound hwhole₁.dated Set.subset_union_left
      hcurrent.recent hagain hplan₂ (fun n hn a ha => ?_) ?_
    · rw [Forgot, honly.values, honly.tangents]
      exact hforgot n hn a (by rwa [formula?_congr honly.statics] at ha)
    · intro g₀ hbegin t ht
      cases hbegin
      rw [htargets] at ht
      obtain ⟨horder, hend, -⟩ := hresumes t ht
      rw [Plan.derivative?_restoreSeeds horder, isSome_resumed]
      exact hend

end Setting

namespace Doubling.Seeded

open Workbench

variable {K D : Type} [Zero K] [Calculus K] (op : BinOp) (x : K) (a b : Option (Stamped D))
  (next : Nat)

def program : Program D where
  targets := .ofList [Twice.source, Twice.target]
  sources := .empty

def plan : Plan where
  order := [Twice.source, Twice.target]
  sources := .ofList [Twice.source]
  versions := [(Twice.source, 0), (Twice.target, 1)]

theorem forall_targets {P : NodeId → Prop} (hsource : P Twice.source) (htarget : P Twice.target) :
    ∀ t ∈ NodeSet.ofList [Twice.source, Twice.target], P t := by
  intro t ht
  obtain rfl | rfl : t = Twice.source ∨ t = Twice.target := by
    simpa using NodeSet.mem_ofList.mp ht
  · exact hsource
  · exact htarget

def seeded : Workbench K D :=
  { (computed op x : Workbench K D) with
    graph := {
      arena :=
        { slots := #[⟨0, some { content := { value := .scalar x, derivative := a } }⟩,
            ⟨0, some
              { content := { value := Twice.doubled op (.scalar x), derivative := b,
                             formula := some (formula op) }
                children := [Twice.source]
                version := 1 }⟩]
          inserted := 2 }
      nextLabel := 3
      nextStamp := next } }

def programs (state : PlanState) : Workbench K D :=
  { (seeded op x a b next : Workbench K D) with programs := [("f", { program with state })] }

theorem compile_program :
    (program : Program D).compile (seeded op x a b next : Workbench K D).graph =
      ({ program with state := .compiled plan }, .ok ()) := by
  let arena := (seeded op x a b next : Workbench K D).graph.arena
  let s₁ : Plan.Search :=
    { closed := [Twice.source], sources := .ofList [Twice.source],
      versions := [(Twice.source, 0)] }
  let s₂ : Plan.Search :=
    { s₁ with
      opened := [⟨Twice.target, [Twice.source]⟩]
      versions := [(Twice.target, 1), (Twice.source, 0)] }
  let s₃ : Plan.Search := { s₂ with opened := [⟨Twice.target, []⟩] }
  let s₄ : Plan.Search := { s₃ with opened := [], closed := [Twice.target, Twice.source] }
  have hrun : Plan.Search.run arena (·.formula.isSome) .empty s₂ = .ok s₄ := by
    rw [Plan.Search.run_next (t := s₃) rfl, Plan.Search.run_next (t := s₄) rfl,
      Plan.Search.run_done rfl]
  have hall : Plan.Search.runAll arena (·.formula.isSome) .empty [Twice.source, Twice.target] {} =
      .ok s₄ := by
    rw [Plan.Search.runAll_next (t := s₁) List.not_mem_nil rfl (Plan.Search.run_done rfl),
      Plan.Search.runAll_next (t := s₂) (by decide) rfl hrun, Plan.Search.runAll]
  exact Program.compile_of_build (Plan.build_of_runAll rfl hall rfl)

variable [One K] [Add K] [Mul K] [MulAdd K] [Capacity K] [NatCast K] [NumberText K]
  [Differential K D] [HostDerivative K D]

theorem step_compile : (programs op x a b next .absent : Workbench K D).step (.run "f" .compile) =
    some (programs op x a b next (.compiled plan), .ok .nothing) := by
  exact step_compile_ok rfl (compile_program op x a b next)

theorem unprobed (h : (seeded op x a b next : Workbench K D).Unprobed) :
    (programs op x a b next (.compiled plan) : Workbench K D).Unprobed := by
  have hprogram : (programs op x a b next .absent : Workbench K D).Unprobed :=
    h.step (.program ["x", "y"] [] "f") id rfl
  exact hprogram.step _ id (step_compile op x a b next)

theorem unprobed_one (d : D) : (seeded op x none (some ⟨0, d⟩) 1 : Workbench K D).Unprobed := by
  have hvariable := (unprobed_operations (D := D) op x).step _ id (step_variable op x)
  exact hvariable.step (.setDerivative "y" d) id rfl

theorem unprobed_both (c d : D) :
    (seeded op x (some ⟨1, c⟩) (some ⟨0, d⟩) 2 : Workbench K D).Unprobed :=
  (unprobed_one op x d).step (.setDerivative "x" c) id rfl

end Doubling.Seeded

theorem Setting.pullGradient_repeats_seeded :
    let w : Workbench Float Float :=
      Doubling.Seeded.programs .add 3 (some ⟨1, 1⟩) (some ⟨0, 1⟩) 2 (.compiled Doubling.Seeded.plan)
    let p : Program Float :=
      { Doubling.Seeded.program with state := .compiled Doubling.Seeded.plan }
    w.Reachable ∧ w.graph.Young ∧ w.program? (.name "f") = some p ∧
      ∃ q g₁ q₂ g₂, Pass.pullGradient.run p w.graph = some ((q, .ok ()), g₁) ∧
        Pass.pullGradient.run q g₁ = some ((q₂, .ok ()), g₂) ∧
        g₂.differential? = g₁.differential? := by
  intro w p
  have hw : w.Reachable := (Doubling.Seeded.unprobed .add 3 _ _ 2
    (Doubling.Seeded.unprobed_both (D := Float) .add 3 1 1)).reachable
  have hyoung : w.graph.Young := ⟨by decide, by decide⟩
  have hrun : Pass.pullGradient.run p w.graph = some ((_, .ok ()), _) :=
    (Program.run_fresh (rfl : p.state = .compiled Doubling.Seeded.plan) rfl rfl).trans rfl
  obtain ⟨plan, hplan, -, hforgot⟩ :=
    pullGradient_repeats (s := .workbench w) (f := .name "f") (.workbench hw) hyoung rfl hrun
  obtain rfl : Doubling.Seeded.plan = plan := Option.some.inj hplan
  have hblank : w.graph.Blank := ⟨rfl, rfl⟩
  obtain ⟨q₂, g₂, hagain, hsame⟩ := (hforgot fun n _ a _ => hblank.forgot a).1 <|
    Doubling.Seeded.forall_targets rfl rfl
  exact ⟨hw, hyoung, rfl, _, _, q₂, g₂, hrun, hagain, hsame⟩

/-- A target that holds no derivative is read by another one that holds one. What flows
into it in one pass is a seed of the next. -/
theorem Workbench.gradient_compounds :
    ∃ (w : Workbench Float Float) (p q q' : Program Float) (g g' : Graph Float Float) (n : NodeId),
      w.Reachable ∧ w.program? (.name "f") = some p ∧ n ∈ p.targets ∧
      w.graph.derivative? n = none ∧
      Pass.pullGradient.run p w.graph = some ((q, .ok ()), g) ∧ g.differential? n = some 2 ∧
      Pass.pullGradient.run q g = some ((q', .ok ()), g') ∧ g'.differential? n = some 4 := by
  let w : Workbench Float Float :=
    Doubling.Seeded.programs .add 3 none (some ⟨0, 1⟩) 1 (.compiled Doubling.Seeded.plan)
  let p : Program Float :=
    { Doubling.Seeded.program with state := .compiled Doubling.Seeded.plan }
  have hboth : ((Pass.pullGradient.run p w.graph).bind fun r =>
      (Pass.pullGradient.run r.1.1 r.2).map fun r' =>
        (r.1.2, r.2.differential? Twice.source, r'.1.2, r'.2.differential? Twice.source)) =
      some (.ok (), some 2, .ok (), some 4) := by decide +kernel
  obtain ⟨⟨⟨q, r⟩, g⟩, hrun, h⟩ := Option.bind_eq_some_iff.mp hboth
  obtain ⟨⟨⟨q', r'⟩, g'⟩, hagain, h⟩ := Option.map_eq_some_iff.mp h
  simp only [Prod.mk.injEq] at h
  obtain ⟨rfl, hfirst, rfl, hsecond⟩ := h
  exact ⟨w, p, q, q', g, g', Twice.source,
    (Doubling.Seeded.unprobed .add 3 _ _ 1 (Doubling.Seeded.unprobed_one .add 3 1)).reachable, rfl,
    List.mem_cons_self .., rfl, hrun, hfirst, hagain, hsecond⟩

end GradientGraph
