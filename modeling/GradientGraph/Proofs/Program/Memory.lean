import GradientGraph.Proofs.Graph.Silent

/-!
# What a program remembers

The plan that a program holds was built from a graph that has become the present one.
Passes give no variable a formula, so this goes on to hold, and a pass that does not
refuse works on the plan that would be built now.
-/

set_option autoImplicit false

namespace GradientGraph

open GradientGraph.Graph

section Seeds

variable {K D : Type}

theorem Plan.keeps_restoreSeeds (p : Plan) (seeds : List (Seed D)) (g : Graph K D) :
    g.Keeps (p.restoreSeeds seeds g) := by
  have hone (seed : Seed D) (g : Graph K D) : g.Keeps (p.restoreSeed seed g) := by
    unfold Plan.restoreSeed
    split
    · split
      · split
        · exact .setDerivative g _ _
        · exact .refl g
      · exact .refl g
    · exact .refl g
  induction seeds generalizing g with
  | nil => exact .refl g
  | cons seed seeds ih => exact (hone seed g).trans (ih _)

variable [Differential K D]

theorem silent_fillDerivative (n : NodeId) (r c : Nat) :
    Silent (fillDerivative n r c : GraphM K D Unit) := by
  refine silent_get.bind fun g => ?_
  cases g.derivative? n with
  | none => exact (silent_ofOption _).bind fun _ => silent_giveDerivative n _
  | some d => exact silent_pure ()

theorem Plan.silent_seedSources (p : Plan) (s : NodeId) :
    Silent (p.seedSources s : GraphM K D Unit) := by
  refine silent_get.bind fun _ => silent_forM (fun n => silent_ite ?_ ?_) _
  · exact (silent_ofOption _).bind fun _ => silent_giveDerivative n _
  · exact silent_get.bind fun _ => (silent_ofOption _).bind fun _ => silent_giveDerivative n _

theorem Plan.silent_seedTargets (p : Plan) (targets : NodeSet) (t : NodeId) :
    Silent (p.seedTargets targets t : GraphM K D Unit) := by
  refine silent_get.bind fun _ => silent_forM (fun n => silent_ite ?_ ?_) _
  · exact (silent_ofOption _).bind fun _ => silent_giveDerivative n _
  · exact silent_get.bind fun _ => (silent_ofOption _).bind fun _ => silent_giveDerivative n _

end Seeds

section Loops

variable {K D : Type} [Zero K] [Add K] [Mul K] [MulAdd K] [Capacity K] [NatCast K] [Calculus K]

theorem Plan.silent_evaluate (p : Plan) : Silent (p.evaluate : GraphM K D Unit) :=
  silent_forM silent_evaluateNode _

variable [One K] [Differential K D]

theorem silent_pushForwardNode (n : NodeId) : Silent (pushForwardNode n : GraphM K D Unit) := by
  refine (silent_cell n).bind fun c => ?_
  cases c.formula with
  | none => exact silent_pure ()
  | some a =>
    refine (silent_pushForward _).bind fun t => (silent_forget a).bind fun _ => ?_
    exact silent_modify fun g => .setDerivative g n t

theorem silent_pullBackNode (n : NodeId) : Silent (pullBackNode n : GraphM K D Unit) := by
  refine (silent_cell n).bind fun c => ?_
  cases c.formula with
  | none => exact silent_pure ()
  | some a =>
    cases c.derivative with
    | none => exact silent_pure ()
    | some d => exact (silent_pullBack _ _).bind fun _ => silent_forget a

namespace Plan

theorem silent_forward (p : Plan) : Silent (p.forward : GraphM K D Unit) :=
  silent_get.bind fun _ => (silent_forM silent_pushForwardNode _).bind fun _ =>
    silent_forM (fun n => silent_get.bind fun _ => silent_fillDerivative n _ _) _

theorem silent_backward (p : Plan) (targets : NodeSet) :
    Silent (p.backward targets : GraphM K D (List (Seed D))) :=
  silent_get.bind fun _ => (silent_forM silent_clearDerivative _).bind fun _ =>
    silent_get.bind fun _ => (silent_forM silent_pullBackNode _).bind fun _ =>
      (silent_forM (fun n => silent_get.bind fun _ => silent_fillDerivative n _ _) _).bind
        fun _ => silent_get.bind fun _ => silent_pure _

end Plan

inductive Pass where
  | evaluate
  | pushTangent
  | pushTangentAt (source : NodeId)
  | pullGradient
  | pullGradientAt (target : NodeId)

namespace Pass

def run : Pass → Program D → GraphM K D (Program D × Except Error Unit)
  | .evaluate, p => p.evaluate
  | .pushTangent, p => p.pushTangent
  | .pushTangentAt s, p => p.pushTangentAt s
  | .pullGradient, p => p.pullGradient
  | .pullGradientAt t, p => p.pullGradientAt t

def check : Pass → Program D → Plan → Except Error Unit
  | .pushTangentAt s, _, plan => if s ∈ plan.sources then .ok () else .error .notASource
  | .pullGradientAt t, p, _ => if t ∈ p.targets then .ok () else .error .notATarget
  | _, _, _ => .ok ()

theorem mem_sources_of_check {p : Program D} {plan : Plan} {s : NodeId}
    (h : (pushTangentAt s).check p plan = .ok ()) : s ∈ plan.sources := by
  by_contra hs
  rw [check, if_neg hs] at h
  cases h

theorem mem_targets_of_check {p : Program D} {plan : Plan} {t : NodeId}
    (h : (pullGradientAt t).check p plan = .ok ()) : t ∈ p.targets := by
  by_contra ht
  rw [check, if_neg ht] at h
  cases h

def body : Pass → Program D → Plan → GraphM K D (Program D)
  | .evaluate, p, plan => do
    plan.evaluate
    return p
  | .pushTangent, p, plan => do
    plan.forward
    return p
  | .pushTangentAt s, p, plan => do
    plan.seedSources s
    plan.forward
    return p
  | .pullGradient, p, plan => do
    modify (plan.restoreSeeds p.seeds)
    let seeds ← plan.backward p.targets
    return { p with seeds }
  | .pullGradientAt t, p, plan => do
    plan.seedTargets p.targets t
    let seeds ← plan.backward p.targets
    return { p with seeds }

theorem run_eq (x : Pass) (p : Program D) :
    (x.run p : GraphM K D _) = p.pass (x.check p) x.body := by
  cases x <;> rfl

theorem silent_body (x : Pass) (p : Program D) (plan : Plan) :
    Silent (x.body p plan : GraphM K D (Program D)) := by
  cases x with
  | evaluate => exact plan.silent_evaluate.bind fun _ => silent_pure p
  | pushTangent => exact plan.silent_forward.bind fun _ => silent_pure p
  | pushTangentAt s =>
    exact (plan.silent_seedSources s).bind fun _ => plan.silent_forward.bind fun _ => silent_pure p
  | pullGradient =>
    exact (silent_modify fun g => plan.keeps_restoreSeeds p.seeds g).bind fun _ =>
      (plan.silent_backward p.targets).bind fun _ => silent_pure _
  | pullGradientAt t =>
    exact (plan.silent_seedTargets p.targets t).bind fun _ =>
      (plan.silent_backward p.targets).bind fun _ => silent_pure _

inductive Reverse : Pass → Prop where
  | pullGradient : Reverse .pullGradient
  | pullGradientAt (t : NodeId) : Reverse (.pullGradientAt t)

def begin : Pass → Program D → Plan → GraphM K D Unit
  | .pullGradient, p, plan => modify (plan.restoreSeeds p.seeds)
  | .pullGradientAt t, p, plan => plan.seedTargets p.targets t
  | _, _, _ => pure ()

theorem Reverse.body_eq {x : Pass} (hx : x.Reverse) (p : Program D) (plan : Plan) :
    (x.body p plan : GraphM K D (Program D)) = do
      x.begin p plan
      let seeds ← plan.backward p.targets
      return { p with seeds } := by
  cases hx <;> rfl

section Bodies

variable {x : Pass} {p q : Program D} {plan : Plan} {g g' : Graph K D}

theorem body_of_not_reverse (hx : ¬x.Reverse) (h : x.body p plan g = some (q, g')) : q = p := by
  cases x with
  | evaluate =>
    obtain ⟨_, _, -, hq⟩ := exists_of_bind h
    cases hq
    rfl
  | pushTangent =>
    obtain ⟨_, _, -, hq⟩ := exists_of_bind h
    cases hq
    rfl
  | pushTangentAt s =>
    obtain ⟨_, _, -, h⟩ := exists_of_bind h
    obtain ⟨_, _, -, hq⟩ := exists_of_bind h
    cases hq
    rfl
  | pullGradient => exact absurd .pullGradient hx
  | pullGradientAt t => exact absurd (.pullGradientAt t) hx

theorem body_seeds (h : x.body p plan g = some (q, g')) : ∃ seeds, q = { p with seeds } := by
  by_cases hx : x.Reverse
  · rw [hx.body_eq] at h
    obtain ⟨_, _, -, h⟩ := exists_of_bind h
    obtain ⟨seeds, _, -, hq⟩ := exists_of_bind h
    cases hq
    exact ⟨seeds, rfl⟩
  · exact ⟨p.seeds, body_of_not_reverse hx h⟩

theorem body_onlyDerivatives {β : Label → Expression K} (hx : x ≠ .evaluate)
    (hv : plan.Visitable β g) (h : x.body p plan g = some (q, g')) : OnlyDerivatives g g' := by
  cases x with
  | evaluate => exact absurd rfl hx
  | pushTangent =>
    obtain ⟨_, _, hforward, hq⟩ := exists_of_bind h
    cases hq
    obtain ⟨_, -, hg', -⟩ := rel_right (Plan.forward_run hv) hforward
    exact hg'
  | pushTangentAt s =>
    obtain ⟨_, g₁, hseed, h⟩ := exists_of_bind h
    obtain ⟨_, _, hforward, hq⟩ := exists_of_bind h
    cases hq
    obtain ⟨_, -, hg₁, -⟩ := rel_right (Plan.seedSources_run hv s) hseed
    obtain ⟨_, -, hg', -⟩ := rel_right (Plan.forward_run (hv.congr hg₁)) hforward
    exact hg₁.trans hg'
  | pullGradient =>
    have hg₁ := Program.restoreSeeds_onlyDerivatives plan p.seeds g
    obtain ⟨_, _, hseed, h⟩ := exists_of_bind h
    cases hseed
    obtain ⟨_, _, hbackward, hq⟩ := exists_of_bind h
    cases hq
    obtain ⟨_, -, hg', -⟩ := rel_right (Plan.backward_run (hv.congr hg₁) p.targets) hbackward
    exact hg₁.trans hg'
  | pullGradientAt t =>
    obtain ⟨_, g₁, hseed, h⟩ := exists_of_bind h
    obtain ⟨_, _, hbackward, hq⟩ := exists_of_bind h
    cases hq
    obtain ⟨_, -, hg₁, -⟩ :=
      rel_right (Plan.seedTargets_run (fun n hn => (hv n hn).live) p.targets t) hseed
    obtain ⟨_, -, hg', -⟩ := rel_right (Plan.backward_run (hv.congr hg₁) p.targets) hbackward
    exact hg₁.trans hg'

end Bodies

end Pass

end Loops

/-- Whether too few nodes were inserted and too few assignments made for a generation
or a version to have come round. -/
def Graph.Young {K D : Type} (g : Graph K D) : Prop :=
  g.arena.inserted < UInt32.size ∧ g.assigned < UInt64.size

namespace Program

section Memory

variable {K D : Type}

/-- Whether the plan, if there is one, was built from what the graph used to be. -/
def Remembers (p : Program D) (g : Graph K D) : Prop :=
  ∀ plan, p.plan? = some plan → ∃ g₀ : Graph K D, g₀.Ages g ∧ p.build g₀ = .ok plan

/-- Whether, moreover, no generation and no version can have come round since then. -/
def Recent (p : Program D) (g : Graph K D) : Prop :=
  ∀ plan, p.plan? = some plan → ∃ g₀ : Graph K D, g₀.Ages g ∧ p.build g₀ = .ok plan ∧
    g.arena.inserted - g₀.arena.inserted < UInt32.size ∧
    g.assigned - g₀.assigned < UInt64.size

variable {p q : Program D} {g g' : Graph K D} {plan : Plan}

theorem Remembers.recent (hp : p.Remembers g) (hg : g.Young) : p.Recent g := by
  intro plan hplan
  obtain ⟨g₀, hg₀, hbuild⟩ := hp plan hplan
  exact ⟨g₀, hg₀, hbuild, Nat.lt_of_le_of_lt (Nat.sub_le _ _) hg.1,
    Nat.lt_of_le_of_lt (Nat.sub_le _ _) hg.2⟩

theorem Recent.remembers (hp : p.Recent g) : p.Remembers g := by
  intro plan hplan
  obtain ⟨g₀, hg₀, hbuild, -⟩ := hp plan hplan
  exact ⟨g₀, hg₀, hbuild⟩

theorem Current.recent (h : p.Current g plan) : p.Recent g := by
  intro made hmade
  obtain hnone | hsome := h.kept
  · rw [hmade] at hnone
    cases hnone
  · obtain rfl : made = plan := Option.some.inj (hmade.symm.trans hsome)
    refine ⟨g, .refl g, h.build, ?_, ?_⟩
    · rw [Nat.sub_self]
      exact Nat.zero_lt_succ _
    · rw [Nat.sub_self]
      exact Nat.zero_lt_succ _

theorem Remembers.ages (h : p.Remembers g) (hg : g.Ages g') : p.Remembers g' := by
  intro plan hplan
  obtain ⟨g₀, hg₀, hbuild⟩ := h plan hplan
  exact ⟨g₀, hg₀.trans hg, hbuild⟩

theorem Remembers.reseed (h : p.Remembers g) (seeds : List (Seed D)) :
    ({ p with seeds } : Program D).Remembers g := h

theorem remembers_of_none (h : p.plan? = none) : p.Remembers g := by
  intro plan hplan
  rw [h] at hplan
  cases hplan

theorem remembers_create {targets sources : List NodeId} (h : create targets sources = .ok p) :
    p.Remembers g := by
  apply remembers_of_none
  unfold create at h
  split at h
  · cases h
  · cases h
    rfl

theorem compile_of_build (h : p.build g = .ok plan) :
    p.compile g = ({ p with state := .compiled plan }, .ok ()) := by
  rw [compile, h]

theorem remembers_compile (p : Program D) (g : Graph K D) : (p.compile g).1.Remembers g := by
  intro plan hplan
  cases hbuild : p.build g with
  | error e =>
    rw [compile, hbuild] at hplan
    cases hplan
  | ok made =>
    rw [compile, hbuild] at hplan ⊢
    cases hplan
    exact ⟨g, .refl g, hbuild⟩

/-- The plan for the next pass of a program that will not be compiled first. -/
def consult (p : Program D) (g : Graph K D) : Program D × Except Error Plan :=
  match p.state with
  | .compiled plan => (p, if plan.isFresh g.arena then .ok plan else .error .stalePlan)
  | .failed e => (p, .error e)
  | .absent => (p, .error .nodeNotIndexed)

theorem consult_fst (p : Program D) (g : Graph K D) : (p.consult g).1 = p := by
  unfold consult
  split <;> rfl

theorem consult_ok (h : p.consult g = (q, .ok plan)) :
    q = p ∧ p.state = .compiled plan ∧ plan.isFresh g.arena = true := by
  unfold consult at h
  split at h
  · rename_i made hmade
    obtain ⟨rfl, hplan⟩ := Prod.mk.inj h
    split at hplan
    · rename_i hfresh
      cases hplan
      exact ⟨rfl, hmade, hfresh⟩
    · cases hplan
  · cases (Prod.mk.inj h).2
  · cases (Prod.mk.inj h).2

theorem ready_of_plan (h : p.plan? = some plan) : p.ready g = p.consult g := by
  unfold plan? at h
  split at h
  · rename_i made hmade
    simp only [ready, consult, hmade]
  · cases h

theorem ready_of_none (h : p.plan? = none) : p.ready g = (p.compile g).1.consult g := by
  unfold plan? at h
  split at h
  · cases h
  · rename_i hne
    unfold ready consult
    split
    · rename_i made hmade
      exact absurd hmade (hne made)
    · rfl

theorem compiled_eq (hp : p.state = .compiled plan) :
    p.compiled g = plan.isFresh g.arena := by
  rw [compiled, hp]

theorem ready_of_compiled (hp : p.state = .compiled plan) :
    p.ready g = (p, if plan.isFresh g.arena then .ok plan else .error .stalePlan) := by
  have hplan : p.plan? = some plan := by rw [plan?, hp]
  rw [ready_of_plan hplan, consult, hp]

theorem remembers_ready (h : p.Remembers g) : (p.ready g).1.Remembers g := by
  cases hp : p.plan? with
  | some plan =>
    rw [ready_of_plan hp, consult_fst]
    exact h
  | none =>
    rw [ready_of_none hp, consult_fst]
    exact remembers_compile p g

theorem ready_ok (h : p.ready g = (q, .ok plan)) :
    plan.isFresh g.arena = true ∧ q.state = .compiled plan ∧
      (q = p ∨ p.plan? = none ∧ q = (p.compile g).1) := by
  cases hp : p.plan? with
  | some made =>
    rw [ready_of_plan hp] at h
    obtain ⟨rfl, hstate, hfresh⟩ := consult_ok h
    exact ⟨hfresh, hstate, .inl rfl⟩
  | none =>
    rw [ready_of_none hp] at h
    obtain ⟨rfl, hstate, hfresh⟩ := consult_ok h
    exact ⟨hfresh, hstate, .inr ⟨rfl, rfl⟩⟩

theorem ready_state (h : p.ready g = (q, .ok plan)) : q = { p with state := .compiled plan } := by
  obtain ⟨-, hstate, rfl | ⟨-, rfl⟩⟩ := ready_ok h
  · rw [← hstate]
  · unfold compile at hstate ⊢
    split at hstate
    · cases hstate
      rfl
    · cases hstate

/-- What a pass goes ahead with is the plan that is built now. -/
theorem current_of_ready (hp : p.Recent g)
    (h : p.ready g = (q, .ok plan)) (hlive : plan.isLive g.arena = true) :
    p.Current g plan := by
  obtain ⟨hfresh, hstate, rfl | ⟨hnone, rfl⟩⟩ := ready_ok h
  · have hplan : q.plan? = some plan := by rw [plan?, hstate]
    obtain ⟨g₀, hg₀, hbuild, hk, hm⟩ := hp plan hplan
    exact ⟨Plan.build_of_fresh hbuild hg₀.later hk hm hfresh hlive, .inr hplan⟩
  · refine ⟨?_, .inl hnone⟩
    cases hbuild : p.build g with
    | error e => simp [compile, hbuild] at hstate
    | ok made => simpa [compile, hbuild] using hstate

theorem Current.compile_self {made : Plan} (h : p.Current g plan)
    (hmade : p.state = .compiled made) : made = plan ∧ p.compile g = (p, .ok ()) := by
  have hplan : p.plan? = some made := by rw [plan?, hmade]
  obtain hnone | hsome := h.kept
  · rw [hplan] at hnone
    cases hnone
  · obtain rfl : made = plan := Option.some.inj (hplan.symm.trans hsome)
    rw [compile_of_build h.build, ← hmade]
    exact ⟨rfl, rfl⟩

end Memory

section Passes

variable {K D : Type} [Zero K] [One K] [Add K] [Mul K] [MulAdd K] [Capacity K] [NatCast K]
  [Calculus K] [Differential K D] {p q : Program D} {g g' : Graph K D}

theorem run_stale {plan : Plan} (hp : p.state = .compiled plan)
    (hstale : plan.isFresh g.arena = false) (x : Pass) :
    x.run p g = some ((p, .error .stalePlan), g) := by
  rw [Pass.run_eq, pass_eq, ready_of_compiled hp, hstale]
  rfl

theorem run_fresh {plan : Plan} (hp : p.state = .compiled plan)
    (hfresh : plan.isFresh g.arena = true) {x : Pass} (hcheck : x.check p plan = .ok ()) :
    x.run p g =
      if plan.isLive g.arena then (x.body p plan g).map fun r => ((r.1, .ok ()), r.2)
      else some ((p, .error .nodeNotIndexed), g) := by
  rw [Pass.run_eq, pass_eq, ready_of_compiled hp, hfresh]
  simp only [if_true, hcheck]

theorem refused_or_body (x : Pass) (p : Program D) (g : Graph K D) :
    (∃ e, x.run p g = some (((p.ready g).1, .error e), g)) ∨
      ∃ p' plan, p.ready g = (p', .ok plan) ∧ x.check p plan = .ok () ∧
        plan.isLive g.arena = true ∧
        x.run p g = (x.body p' plan g).map fun r => ((r.1, .ok ()), r.2) := by
  rw [Pass.run_eq, pass_eq]
  cases hready : p.ready g with
  | mk p' made =>
    cases made with
    | error e => exact .inl ⟨e, rfl⟩
    | ok plan =>
      cases hcheck : x.check p plan with
      | error e => exact .inl ⟨e, by simp only [hcheck]⟩
      | ok _ =>
        by_cases hlive : plan.isLive g.arena = true
        · refine .inr ⟨p', plan, rfl, hcheck, hlive, ?_⟩
          simp only [hcheck, if_pos hlive]
        · exact .inl ⟨.nodeNotIndexed, by simp only [hcheck, if_neg hlive]⟩

/-- A pass is refused and nothing happens, or it does its work on a fresh and live
plan. -/
theorem run_cases {x : Pass} {r : Except Error Unit} (h : x.run p g = some ((q, r), g')) :
    (∃ e, r = .error e) ∧ q = (p.ready g).1 ∧ g' = g ∨
      ∃ p' plan, r = .ok () ∧ p.ready g = (p', .ok plan) ∧ x.check p plan = .ok () ∧
        plan.isLive g.arena = true ∧ x.body p' plan g = some (q, g') := by
  obtain ⟨e, hrun⟩ | ⟨p', plan, hready, hcheck, hlive, hrun⟩ := refused_or_body x p g
  · rw [hrun] at h
    cases h
    exact .inl ⟨⟨e, rfl⟩, rfl, rfl⟩
  · rw [hrun] at h
    obtain ⟨_, hbody, hr⟩ := Option.map_eq_some_iff.mp h
    cases hr
    exact .inr ⟨p', plan, rfl, hready, hcheck, hlive, hbody⟩

theorem onlyDerivatives_run {x : Pass} {r : Except Error Unit} (hg : g.Sound) (hb : g.Blank)
    (hx : x ≠ .evaluate) (h : x.run p g = some ((q, r), g')) : OnlyDerivatives g g' := by
  obtain ⟨-, -, rfl⟩ | ⟨p', plan, -, -, -, hlive, hbody⟩ := run_cases h
  · exact .refl g'
  · obtain ⟨β, hβ⟩ := hg.named
    exact Pass.body_onlyDerivatives hx (hb.visitable hβ hlive) hbody

theorem run_keeps {x : Pass} {r : Except Error Unit} (hp : p.Remembers g)
    (h : x.run p g = some ((q, r), g')) : g.Keeps g' ∧ q.Remembers g' := by
  have hready := remembers_ready hp
  obtain ⟨-, rfl, rfl⟩ | ⟨p', plan, -, hp', -, -, hbody⟩ := run_cases h
  · exact ⟨.refl g', hready⟩
  · have hkeeps := x.silent_body p' plan g q g' hbody
    obtain ⟨seeds, rfl⟩ := Pass.body_seeds hbody
    rw [hp'] at hready
    exact ⟨hkeeps, (hready.reseed seeds).ages hkeeps.ages⟩

theorem run_compile {x : Pass} (hp : p.Recent g)
    (h : x.run p g = some ((q, .ok ()), g')) :
    ∃ plan, p.Current g plan ∧
      x.body { p with state := .compiled plan } plan g = some (q, g') ∧
      x.run (p.compile g).1 g = some ((q, .ok ()), g') := by
  obtain ⟨⟨e, he⟩, -, -⟩ | ⟨p', plan, -, hready, hcheck, hlive, hbody⟩ := run_cases h
  · cases he
  have hcurrent := current_of_ready hp hready hlive
  obtain rfl := ready_state hready
  refine ⟨plan, hcurrent, hbody, ?_⟩
  have hready' : ({ p with state := .compiled plan } : Program D).ready g =
      ({ p with state := .compiled plan }, .ok plan) := by
    obtain ⟨hfresh, -, -⟩ := ready_ok hready
    simp only [ready, hfresh, if_true]
  have hcheck' : x.check { p with state := .compiled plan } plan = .ok () := by
    cases x <;> exact hcheck
  rw [compile_of_build hcurrent.build, Pass.run_eq, pass_eq, hready']
  simp only [hcheck', hlive, if_true, hbody, Option.map_some]

/-- A pass that goes ahead leaves its program with the current plan. -/
theorem current_iff_of_run {x : Pass} {plan : Plan} (hp : p.Recent g)
    (h : x.run p g = some ((q, .ok ()), g')) : p.Current g plan ↔ q.plan? = some plan := by
  obtain ⟨made, hcurrent, hbody, -⟩ := run_compile hp h
  obtain ⟨seeds, rfl⟩ := Pass.body_seeds hbody
  constructor
  · intro hplan
    obtain rfl : made = plan := Except.ok.inj (hcurrent.build.symm.trans hplan.build)
    rfl
  · intro hplan
    obtain rfl : made = plan := Option.some.inj hplan
    exact hcurrent

end Passes

end Program

end GradientGraph
