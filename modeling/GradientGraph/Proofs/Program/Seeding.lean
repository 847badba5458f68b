import GradientGraph.Proofs.Program.Repetition

/-!
# Seeds in the course of a run

What a target is to start from is what it was last given: the derivative that was set, or
the one that a reverse pass from a single target set. The reverse passes in between add
what flows into the target to its derivative, but not to what it is put back to.
-/

set_option autoImplicit false

namespace GradientGraph

open GradientGraph.Graph

section Seeds

variable {K D : Type}

theorem foldlM_giveStep {f : NodeId → Option D} {ns : List NodeId} {τ τ' : NodeId → Option D}
    (h : ns.foldlM (giveStep f) τ = some τ') {n : NodeId}
    (hn : n ∈ ns ∨ (τ n).isSome ∧ τ n = f n) : (τ' n).isSome ∧ τ' n = f n := by
  induction ns generalizing τ with
  | nil =>
    cases h
    exact hn.resolve_left List.not_mem_nil
  | cons m ns ih =>
    rw [List.foldlM_cons] at h
    obtain ⟨σ, hσ, h⟩ := Option.bind_eq_some_iff.mp h
    obtain ⟨d, hd, rfl⟩ := Option.map_eq_some_iff.mp hσ
    refine ih h ?_
    by_cases hnm : n = m
    · subst hnm
      rw [Function.update_self]
      exact .inr ⟨rfl, hd.symm⟩
    · rw [Function.update_of_ne hnm]
      exact hn.imp (fun hn => (List.mem_cons.mp hn).resolve_left hnm) id

theorem Plan.seedTargets_gives [Differential K D] {plan : Plan} {targets : NodeSet}
    {g g₀ : Graph K D} {u t : NodeId} (hlive : ∀ n ∈ plan.order, g.arena.contains n)
    (h : plan.seedTargets targets u g = some ((), g₀)) (horder : t ∈ plan.order)
    (ht : t ∈ targets) :
    ∃ d, g₀.derivative? t = some d ∧ targetSeed g.value? u t = some d.value := by
  obtain ⟨τ, hτ, -, rfl⟩ := rel_right (seedTargets_run hlive targets u) h
  have hmem : t ∈ plan.order.filter (· ∈ targets) := List.mem_filter.mpr ⟨horder, by simpa using ht⟩
  obtain ⟨hsome, hseed⟩ := foldlM_giveStep hτ (.inl hmem)
  obtain ⟨_, he⟩ := Option.isSome_iff_exists.mp hsome
  obtain ⟨d, hd, rfl⟩ := Option.map_eq_some_iff.mp he
  exact ⟨d, hd, hseed.symm.trans he⟩

end Seeds

namespace Setting

variable {K D : Type} [Zero K] [One K] [Add K] [Mul K] [MulAdd K] [Capacity K] [NatCast K]
  [Calculus K] [BEq K] [NumberText K] [Differential K D] [HostDerivative K D]

/-- What the targets of a program are to start from after the move, if they were to start
from `given` before it. -/
def Move.gives (f : ProgramKey) (m : Move K D) (given : NodeId → Option D) :
    NodeId → Option D :=
  match m.deed with
  | .giveDerivative n d => Function.update given n (some d)
  | .pass k (.pullGradientAt t) =>
    if k = f ∧ m.done then Plan.targetSeed m.before.graph.value? t else given
  | _ => given

/-- What the targets of a program are to start from after a run. -/
def lastGiven (f : ProgramKey) (start : NodeId → Option D) (ms : List (Move K D)) :
    NodeId → Option D := ms.foldr (·.gives f) start

/-- Whether the move drops no target, and touches the derivatives of the targets, if at
all, by giving one of them a derivative or by a reverse pass of this very program. -/
structure Move.Minds (f : ProgramKey) (targets : NodeSet) (m : Move K D) : Prop where
  kept : m.deed ≠ .replace f
  live : ∀ t ∈ targets, m.after.graph.arena.contains t
  touches : ∀ t ∈ targets, t ∈ m.deed.touched m.done →
    (∃ d, m.deed = .giveDerivative t d) ∨ (∃ x : Pass, x.Reverse ∧ m.deed = .pass f x) ∨
      m.after.graph.derivative? t = m.before.graph.derivative? t

/-- Whether the program starts from what is given when its next reverse pass begins. -/
def Resumes (f : ProgramKey) (targets : NodeSet) (given : NodeId → Option D)
    (s : Setting K D) : Prop :=
  ∃ p, s.program? f = some p ∧ p.targets = targets ∧ ∀ t ∈ targets,
    ∃ d, resumed p.seeds t (s.graph.derivative? t) = some d ∧ given t = some d.value

variable {s u : Setting K D} {m : Move K D} {ms : List (Move K D)} {f : ProgramKey}
  {p q : Program D} {targets : NodeSet} {given : NodeId → Option D}

theorem Move.keeps_seeds (h : m.before.Reachable) (hp : m.before.program? f = some p)
    (hkept : m.deed ≠ .replace f)
    (hnot : ∀ x : Pass, x.Reverse → m.deed = .pass f x → m.done = false) :
    ∃ q, m.after.program? f = some q ∧ q.targets = p.targets ∧ q.seeds = p.seeds := by
  rcases program_cases h hp hkept with hq | ⟨-, hq⟩ | ⟨x, q, r, g, hdeed, hrun, -, hq, hdone⟩
  · exact ⟨p, hq, rfl, rfl⟩
  · obtain ⟨hseeds, htargets, -⟩ := p.compile_seeds m.before.graph
    exact ⟨_, hq, htargets, hseeds⟩
  · obtain ⟨-, htargets, -, hseeds⟩ := Program.run_program hrun
    refine ⟨q, hq, htargets, hseeds ?_⟩
    by_cases hx : x.Reverse
    · exact .inr (hdone.symm.trans (hnot x hx hdeed))
    · exact .inl hx

theorem Move.resumes_pass (h : m.before.Reachable) (hm : m.Minds f targets)
    (hr : Resumes f targets given m.before) {x : Pass} (hx : x.Reverse)
    (hdeed : m.deed = .pass f x) (hdone : m.done = true) :
    Resumes f targets (m.gives f given) m.after := by
  obtain ⟨p, hp, rfl, hgiven⟩ := hr
  have hleads := leads h
  rw [hdeed] at hleads
  obtain ⟨q, r, g, hrun, hsheds, hq, hok⟩ := hleads.passes hp
  obtain rfl : r = .ok () := by
    cases r with
    | ok _ => rfl
    | error e => cases hok.symm.trans hdone
  have hwhole : m.before.graph.Whole m.before.scene.stamps m.before.nodes := h.whole
  obtain ⟨plan, g₀, -, htargets, hlive, hbegin, hresumes⟩ := Program.reverse_resumes hx
    (h.remembers hp) hwhole.dated (Scene.seedStamps_subset hp) hrun
  refine ⟨q, hq, htargets, fun t ht => ?_⟩
  obtain ⟨horder, -, hresumed⟩ := hresumes t ht
  rw [hsheds.derivative (hm.live t ht), hresumed]
  unfold gives
  rw [hdeed]
  cases hx with
  | pullGradient =>
    cases hbegin
    obtain ⟨d, hd, hgiven⟩ := hgiven t ht
    exact ⟨d, by rw [Plan.derivative?_restoreSeeds horder, hd, Option.some_or], hgiven⟩
  | pullGradientAt u =>
    obtain ⟨d, hd, hseed⟩ := Plan.seedTargets_gives hlive hbegin horder ht
    refine ⟨d, by rw [hd, Option.some_or], ?_⟩
    dsimp only
    rw [if_pos ⟨rfl, hdone⟩]
    exact hseed

theorem Move.gives_other {t : NodeId} (hset : ∀ d, m.deed ≠ .giveDerivative t d)
    (hnot : ∀ x : Pass, x.Reverse → m.deed = .pass f x → m.done = false) :
    m.gives f given t = given t := by
  unfold gives
  cases hdeed : m.deed with
  | giveDerivative n d =>
    have hne : t ≠ n := by
      rintro rfl
      exact hset d hdeed
    exact Function.update_of_ne hne ..
  | pass k x =>
    cases x with
    | pullGradientAt u =>
      dsimp only
      rw [if_neg]
      rintro ⟨rfl, hdone⟩
      rw [hnot _ (.pullGradientAt u) hdeed] at hdone
      cases hdone
    | _ => rfl
  | _ => rfl

/-- After any other move a target starts from the derivative that it was given by it, or
from what it was to start from before. -/
theorem Move.resumes_other (h : m.before.Reachable) (hm : m.Minds f targets)
    (hr : Resumes f targets given m.before)
    (hnot : ∀ x : Pass, x.Reverse → m.deed = .pass f x → m.done = false) :
    Resumes f targets (m.gives f given) m.after := by
  obtain ⟨p, hp, rfl, hgiven⟩ := hr
  obtain ⟨q, hq, htargets, hseeds⟩ := Move.keeps_seeds h hp hm.kept hnot
  have hwhole : m.before.graph.Whole m.before.scene.stamps m.before.nodes := h.whole
  refine ⟨q, hq, htargets, fun t ht => ?_⟩
  rw [hseeds]
  by_cases hset : ∃ d, m.deed = .giveDerivative t d
  · obtain ⟨d, hdeed⟩ := hset
    have hleads := leads h
    rw [hdeed] at hleads
    have hfresh : m.before.graph.nextStamp ∉ seedStamps p.seeds := fun hmem =>
      absurd (hwhole.dated.known _ (Scene.seedStamps_subset hp hmem)) (Nat.lt_irrefl _)
    refine ⟨_, by rw [hleads.gives (hm.live t ht), resumed_of_fresh hfresh], ?_⟩
    unfold gives
    rw [hdeed]
    exact Function.update_self ..
  · obtain ⟨d, hd, hstart⟩ := hgiven t ht
    have hlive : m.before.graph.arena.contains t :=
      contains_of_derivative (by rw [← isSome_resumed p.seeds t, hd]; rfl)
    have hsame : m.after.graph.derivative? t = m.before.graph.derivative? t := by
      by_cases htouched : t ∈ m.deed.touched m.done
      · rcases hm.touches t ht htouched with hdeed | ⟨x, hx, hdeed⟩ | hsame
        · exact absurd hdeed hset
        · rw [hdeed, hnot x hx hdeed] at htouched
          exact htouched.elim
        · exact hsame
      · exact (leads h).alters.derivative hlive (hm.live t ht) htouched
    have hother : m.gives f given t = given t := gives_other (not_exists.mp hset) hnot
    exact ⟨d, by rw [hsame, hd], hother.trans hstart⟩

theorem Move.resumes (h : m.before.Reachable) (hm : m.Minds f targets)
    (hr : Resumes f targets given m.before) : Resumes f targets (m.gives f given) m.after := by
  by_cases hpass : ∃ x : Pass, x.Reverse ∧ m.deed = .pass f x ∧ m.done = true
  · obtain ⟨x, hx, hdeed, hdone⟩ := hpass
    exact resumes_pass h hm hr hx hdeed hdone
  · refine resumes_other h hm hr fun x hx hdeed => ?_
    rw [← Bool.not_eq_true]
    exact fun hdone => hpass ⟨x, hx, hdeed, hdone⟩

theorem Run.resumes (h : Run s ms u) (hs : s.Reachable) (hms : ∀ m ∈ ms, m.Minds f targets)
    (hr : Resumes f targets given s) : Resumes f targets (lastGiven f given ms) u := by
  induction h with
  | nil => exact hr
  | cons hrun ih =>
    rw [List.forall_mem_cons] at hms
    exact Move.resumes (hrun.reachable hs) hms.1 (ih hms.2)

theorem Resumes.starts (h : Resumes f targets given s) (hs : s.Reachable)
    (hp : s.program? f = some p) {g : Graph K D}
    (hrun : Pass.pullGradient.run p s.graph = some ((q, .ok ()), g)) :
    ∃ plan, q.plan? = some plan ∧
      plan.backward targets (plan.restoreSeeds p.seeds s.graph) = some (q.seeds, g) ∧
      ∀ t ∈ targets, ∃ d, (plan.restoreSeeds p.seeds s.graph).differential? t = some d ∧
        given t = some d := by
  obtain ⟨p', hp', rfl, hgiven⟩ := h
  obtain rfl : p = p' := Option.some.inj (hp.symm.trans hp')
  obtain ⟨plan, g₀, seeds, rfl, -, horder, -, hbegin, hbackward⟩ :=
    Program.reverse_cases .pullGradient (hs.remembers hp) hrun
  cases hbegin
  refine ⟨plan, rfl, hbackward, fun t ht => ?_⟩
  obtain ⟨d, hd, hgiven⟩ := hgiven t ht
  refine ⟨d.value, ?_, hgiven⟩
  rw [differential?, Plan.derivative?_restoreSeeds (horder t ht), hd]
  rfl

/-- A reverse pass of either kind leaves nothing for the next to change, if nothing is
remembered of the formulas of the plan. -/
theorem Resumes.repeats (h : Resumes f targets given s) (hs : s.Reachable)
    (hyoung : s.graph.Young) (hp : s.program? f = some p) {x : Pass} (hx : x.Reverse)
    {plan : Plan} {g : Graph K D} (hrun : x.run p s.graph = some ((q, .ok ()), g))
    (hplan : q.plan? = some plan)
    (hforgot : ∀ n ∈ plan.order, ∀ a, s.graph.formula? n = some a → s.graph.Forgot a) :
    ∃ q' g', Pass.pullGradient.run q g = some ((q', .ok ()), g') ∧
      g'.differential? = g.differential? := by
  obtain ⟨p', hp', rfl, hgiven⟩ := h
  obtain rfl : p = p' := Option.some.inj (hp.symm.trans hp')
  have hremembers := hs.remembers hp
  have hwhole : s.graph.Whole s.scene.stamps s.nodes := hs.whole
  refine Program.pullGradient_again hx hs.sound hwhole.dated (Scene.seedStamps_subset hp)
    (hremembers.recent hyoung) hrun hplan hforgot fun g₀ hbegin t ht => ?_
  obtain ⟨made, _, _, rfl, -, horder, hlive, -, -⟩ := Program.reverse_cases hx hremembers hrun
  obtain rfl : made = plan := Option.some.inj hplan
  cases hx with
  | pullGradient =>
    cases hbegin
    obtain ⟨d, hd, -⟩ := hgiven t ht
    rw [Plan.derivative?_restoreSeeds (horder t ht), hd]
    rfl
  | pullGradientAt n =>
    obtain ⟨d, hd, -⟩ := Plan.seedTargets_gives hlive hbegin (horder t ht) ht
    rw [hd]
    rfl

/-- All targets of a program that has made no reverse pass hold a derivative, and in the
moves that follow they are kept and their derivatives are touched only where they are given
and by reverse passes of the program. Then each reverse pass that goes ahead goes backwards
from what the targets were last given, whatever flowed into them before. If moreover
nothing is remembered of the formulas of the plan, a reverse pass of either kind leaves
derivatives that the next one does not change. -/
theorem pullGradient_starts (hs : s.Reachable) (hp : s.program? f = some p)
    (hfirst : p.seeds = []) (hseeded : ∀ t ∈ p.targets, (s.graph.derivative? t).isSome)
    (hrun : Run s ms u) (hms : ∀ m ∈ ms, m.Minds f p.targets) :
    ∃ q, u.program? f = some q ∧ q.targets = p.targets ∧
      (∀ q' g, Pass.pullGradient.run q u.graph = some ((q', .ok ()), g) →
        ∃ plan, q'.plan? = some plan ∧
          plan.backward p.targets (plan.restoreSeeds q.seeds u.graph) = some (q'.seeds, g) ∧
          ∀ t ∈ p.targets, ∃ d, (plan.restoreSeeds q.seeds u.graph).differential? t = some d ∧
            lastGiven f s.graph.differential? ms t = some d) ∧
      (u.graph.Young → ∀ x : Pass, x.Reverse → ∀ q₁ g₁ plan,
        x.run q u.graph = some ((q₁, .ok ()), g₁) → q₁.plan? = some plan →
        (∀ n ∈ plan.order, ∀ a, u.graph.formula? n = some a → u.graph.Forgot a) →
        ∃ q₂ g₂, Pass.pullGradient.run q₁ g₁ = some ((q₂, .ok ()), g₂) ∧
          g₂.differential? = g₁.differential?) := by
  have hstart : Resumes f p.targets s.graph.differential? s := by
    refine ⟨p, hp, rfl, fun t ht => ?_⟩
    obtain ⟨d, hd⟩ := Option.isSome_iff_exists.mp (hseeded t ht)
    refine ⟨d, by rw [hfirst, hd, resumed, List.foldl_nil], ?_⟩
    rw [differential?, hd]
    rfl
  have hresumes := hrun.resumes hs hms hstart
  have hu := hrun.reachable hs
  have hholds := hresumes
  obtain ⟨q, hq, htargets, -⟩ := hholds
  exact ⟨q, hq, htargets, fun _ _ hpull => hresumes.starts hu hq hpull,
    fun hyoung _ hx _ _ _ hpull hplan hforgot =>
      hresumes.repeats hu hyoung hq hx hpull hplan hforgot⟩

end Setting

theorem Doubling.Seeded.step_pullGradient {K D : Type} [Zero K] [One K] [Add K] [Mul K] [MulAdd K]
    [Capacity K] [NatCast K] [Calculus K] [NumberText K] [Differential K D] [HostDerivative K D]
    {op : BinOp} {x : K} {a b : Option (Stamped D)} {next : Nat} {q : Program D} {g : Graph K D}
    (h : Pass.pullGradient.run { program with state := .compiled plan }
      (seeded op x a b next : Workbench K D).graph = some ((q, .ok ()), g)) :
    (programs op x a b next (.compiled plan) : Workbench K D).step (.run "f" .pullGradient) =
      some ({ (seeded op x a b next : Workbench K D) with graph := g, programs := [("f", q)] },
        .ok .nothing) :=
  Workbench.runProgram_ok (w := programs op x a b next (.compiled plan)) h

/-- One target is given another derivative, and a pass follows. The next pass starts from
what that target was given then and from what the other one held at first. It leaves all
derivatives as they are. -/
theorem Setting.pullGradient_starts_given :
    let s : Setting Float Float := .workbench <|
      Doubling.Seeded.programs .add 3 (some ⟨1, 1⟩) (some ⟨0, 1⟩) 2
        (.compiled Doubling.Seeded.plan)
    let p : Program Float :=
      { Doubling.Seeded.program with state := .compiled Doubling.Seeded.plan }
    ∃ (give pull : Move Float Float) (u : Setting Float Float) (q q' : Program Float)
        (plan : Plan) (g : Graph Float Float),
      s.Reachable ∧ s.program? (.name "f") = some p ∧ Run s [pull, give] u ∧
      give.deed = .giveDerivative Twice.target 2 ∧
      pull.deed = .pass (.name "f") .pullGradient ∧ pull.done = true ∧
      u.program? (.name "f") = some q ∧ u.graph.differential? Twice.source = some 5 ∧
      Pass.pullGradient.run q u.graph = some ((q', .ok ()), g) ∧
      plan.backward p.targets (plan.restoreSeeds q.seeds u.graph) = some (q'.seeds, g) ∧
      (plan.restoreSeeds q.seeds u.graph).differential? Twice.source = some 1 ∧
      (plan.restoreSeeds q.seeds u.graph).differential? Twice.target = some 2 ∧
      g.differential? = u.graph.differential? := by
  intro s p
  let w : Workbench Float Float :=
    Doubling.Seeded.programs .add 3 (some ⟨1, 1⟩) (some ⟨2, 2⟩) 3 (.compiled Doubling.Seeded.plan)
  have hgive : (Doubling.Seeded.programs .add 3 (some ⟨1, 1⟩) (some ⟨0, 1⟩) 2
      (.compiled Doubling.Seeded.plan) : Workbench Float Float).step (.setDerivative "y" 2) =
      some (w, .ok .nothing) := rfl
  obtain ⟨q, g₁, hfirst, hplan, hx, hy, hfive⟩ : ∃ (q : Program Float) (g₁ : Graph Float Float),
      Pass.pullGradient.run p w.graph = some ((q, .ok ()), g₁) ∧
        q.plan? = some Doubling.Seeded.plan ∧ g₁.arena.contains Twice.source ∧
        g₁.arena.contains Twice.target ∧ g₁.differential? Twice.source = some 5 :=
    ⟨_, _, rfl, rfl, rfl, rfl, by decide +kernel⟩
  let give : Move Float Float := .workbench hgive
  let pull : Move Float Float := .workbench (Doubling.Seeded.step_pullGradient hfirst)
  have hs : s.Reachable := .workbench (Doubling.Seeded.unprobed .add 3 _ _ 2
    (Doubling.Seeded.unprobed_both (D := Float) .add 3 1 1)).reachable
  have hgives : give.Minds (.name "f") p.targets :=
    ⟨nofun, Doubling.Seeded.forall_targets rfl rfl,
      fun t _ ht => .inl ⟨2, congrArg (Deed.giveDerivative · 2) (Eq.symm ht)⟩⟩
  have hpulls : pull.Minds (.name "f") p.targets :=
    ⟨nofun, Doubling.Seeded.forall_targets hx hy, fun _ _ _ => .inr (.inl ⟨_, .pullGradient, rfl⟩)⟩
  have hgiven : Run s [give] give.after := .cons (m := give) (.nil _)
  have hpulled : Run s [pull, give] pull.after := .cons (m := pull) hgiven
  have hyoung : w.graph.Young := ⟨by decide, by decide⟩
  have hblank : w.graph.Blank := ⟨rfl, rfl⟩
  have hseeded : ∀ t ∈ p.targets, (s.graph.derivative? t).isSome :=
    Doubling.Seeded.forall_targets rfl rfl
  obtain ⟨_, hp, -, -, hrepeats⟩ := pullGradient_starts (f := .name "f") (p := p) hs rfl rfl
    hseeded hgiven (List.forall_mem_singleton.mpr hgives)
  cases hp
  obtain ⟨q', g, hagain, hsame⟩ := hrepeats hyoung _ .pullGradient q g₁ _ hfirst hplan
    fun n _ a _ => hblank.forgot a
  obtain ⟨_, hq, -, hstarts, -⟩ := pullGradient_starts (f := .name "f") (p := p) hs rfl rfl
    hseeded hpulled (List.forall_mem_cons.mpr ⟨hpulls, List.forall_mem_singleton.mpr hgives⟩)
  cases hq
  obtain ⟨plan, -, hbackward, hlast⟩ := hstarts q' g hagain
  obtain ⟨d, hsource, hone⟩ := hlast Twice.source (NodeSet.mem_ofList.mpr (by decide))
  obtain ⟨e, htarget, htwo⟩ := hlast Twice.target (NodeSet.mem_ofList.mpr (by decide))
  exact ⟨give, pull, pull.after, q, q', plan, g, hs, rfl, hpulled, rfl, rfl, rfl, rfl, hfive,
    hagain, hbackward, hsource.trans hone.symm, htarget.trans htwo.symm, hsame⟩

namespace Nested

open Workbench

variable {K D : Type} [Zero K] [Calculus K] (op : BinOp) (x y : K)

def formula : Formula K :=
  .share 3 (.binary (.cwise op) (Doubling.formula op) (Doubling.formula op))

def twice (x : K) : Value K := Twice.doubled op (Twice.doubled op (.scalar x))

def operations : Workbench K D where
  graph := { (Doubling.literals x : Workbench K D).graph with nextLabel := 4 }
  items := (Doubling.operations op x : Workbench K D).items ++
    [("a", .operation .scalar (formula op))]

def graph (d : Option (Stamped D)) : Graph K D where
  arena :=
    { slots := #[⟨0, some { content := { value := .scalar y } }⟩,
        ⟨0, some
          { content := { value := twice op x, derivative := d, formula := some (formula op) }
            children := [Twice.source]
            version := 1 }⟩]
      inserted := 2 }
  nextLabel := 4

def wrapped : Workbench K D where
  graph := graph op x x none
  items := (operations op x : Workbench K D).items ++
    [("y", .var .scalar Twice.target), ("w", .wrapper .scalar (formula op))]

def remembered : List (Label × Value K) := [(3, twice op x), (2, Twice.doubled op (.scalar x))]

def outdated (state : PlanState) (d : D) : Workbench K D where
  graph := { graph op x y (some ⟨0, d⟩) with
    values := remembered op x, assigned := 1, nextStamp := 1 }
  items := (wrapped op x : Workbench K D).items
  programs := [("f", { (Twice.program : Program D) with state })]

theorem compile_program (d : D) :
    (Twice.program : Program D).compile (outdated op x y .absent d : Workbench K D).graph =
      ({ Twice.program with state := .compiled Twice.plan }, .ok ()) :=
  Twice.compile_alike rfl rfl ⟨rfl, rfl, rfl⟩ ⟨rfl, rfl, rfl⟩ (.cwise op) (.scalar y) .absent

variable [Add K] [Mul K] [MulAdd K] [Capacity K] [NatCast K]

theorem newComputed_formula : newComputed (formula op) (operations op x : Workbench K D).graph =
    some (Twice.target, graph op x x none) := by
  have hevaluate : (formula op).expression.evaluate (operations op x : Workbench K D).graph =
      some (twice op x, { (operations op x : Workbench K D).graph with
        values := remembered op x }) := rfl
  have hforget : Graph.forget (formula op) { (operations op x : Workbench K D).graph with
      values := remembered op x } = (operations op x : Workbench K D).graph := by
    simp [Graph.forget, operations, Doubling.literals, remembered, formula, Doubling.formula,
      Formula.labels, Formula.share, Formula.binary, Formula.read, Footprint.insert,
      Footprint.join, Footprint.ofNode]
  rw [newComputed_run hevaluate, hforget]
  rfl

variable [One K] [NumberText K] [Differential K D] [HostDerivative K D]

theorem reachable (d : D) :
    (outdated op x y (.compiled Twice.plan) d : Workbench K D).Reachable := by
  have hliteral := Reachable.start.step _ (Doubling.step_literal (D := D) x)
  have hdoubled := hliteral.step _ (Doubling.step_operation op x)
  have hoperation : (Doubling.operations op x : Workbench K D).step
      (.binary (.operator op) (.ref "e") (.ref "e") "a") =
      some (operations op x, .ok (.text "operation")) := by
    change some (({ Doubling.operations op x with
      graph := (operations op x : Workbench K D).graph } : Workbench K D).store "a"
        (.operation .scalar (formula op)), _) = _
    rw [store_new _ rfl]
    rfl
  let computed : Workbench K D :=
    { graph := graph op x x none
      items := (operations op x : Workbench K D).items ++ [("y", .var .scalar Twice.target)] }
  have hvariable : (operations op x : Workbench K D).step (.newVariable (.ref "a") "y") =
      some (computed, .ok (.text "variable")) := by
    change (operations op x : Workbench K D).make "y"
      (do return .var .scalar (← newComputed (formula op))) = _
    rw [make, Workbench.onGraph, run_bind, newComputed_formula]
    change some (({ operations op x with graph := graph op x x none } : Workbench K D).store "y"
      (.var .scalar Twice.target), _) = _
    rw [store_new _ rfl]
    rfl
  have hwrapper : computed.step (.wrapper "a" "w") =
      some (wrapped op x, .ok (.text "wrapper")) := by
    change some (computed.store "w" (.wrapper .scalar (formula op)), _) = _
    rw [store_new _ rfl]
    rfl
  let read : Workbench K D :=
    { wrapped op x with graph := { graph op x x none with values := remembered op x } }
  have hvalue : (wrapped op x : Workbench K D).step (.value "w") =
      some (read, .ok (.value (twice op x))) := rfl
  let changed : Workbench K D :=
    { wrapped op x with
      graph := { graph op x y none with values := remembered op x, assigned := 1 } }
  have hassign : read.step (.assign "x" (.literal (.scalar y))) =
      some (changed, .ok .nothing) := by
    change some (changed.release [], _) = _
    rw [Workbench.release, Graph.release]
  have hchanged := ((((hdoubled.step _ hoperation).step _ hvariable).step _ hwrapper).step _
    hvalue).step _ hassign
  have hprogram : (outdated op x y .absent d : Workbench K D).Reachable :=
    (hchanged.step (.setDerivative "y" d) rfl).step (.program ["y"] [] "f") rfl
  have hcompile : (outdated op x y .absent d : Workbench K D).step (.run "f" .compile) =
      some (outdated op x y (.compiled Twice.plan) d, .ok .nothing) :=
    step_compile_ok rfl (compile_program op x y d)
  exact hprogram.step _ hcompile

end Nested

/-- A wrapper is evaluated by itself, and the variable that it reads is assigned. The reverse
pass that follows uses what is remembered, and the next one does not. -/
theorem Workbench.gradient_outdated :
    ∃ (w : Workbench Float Float) (p q q' : Program Float) (g g' : Graph Float Float),
      w.Reachable ∧ w.program? (.name "f") = some p ∧ p.seeds = [] ∧
      (∀ t ∈ p.targets, (w.graph.derivative? t).isSome) ∧
      Pass.pullGradient.run p w.graph = some ((q, .ok ()), g) ∧
      g.differential? Twice.source = some 180 ∧
      Pass.pullGradient.run q g = some ((q', .ok ()), g') ∧
      g'.differential? Twice.source = some 500 := by
  let w : Workbench Float Float := Nested.outdated .mul 3 5 (.compiled Twice.plan) 1
  let p : Program Float := { Twice.program with state := .compiled Twice.plan }
  have hseeded : ∀ t ∈ p.targets, (w.graph.derivative? t).isSome := by
    intro t ht
    obtain rfl : t = Twice.target := by simpa using NodeSet.mem_ofList.mp ht
    rfl
  -- one pass after the other, down to the numbers, so that it can be computed at once
  have hruns : ((Pass.pullGradient.run p w.graph).bind fun r =>
      (Pass.pullGradient.run r.1.1 r.2).map fun r' =>
        ((r.1.2, r.2.differential? Twice.source), (r'.1.2, r'.2.differential? Twice.source))) =
      some ((.ok (), some 180), (.ok (), some 500)) := by
    decide +kernel
  obtain ⟨⟨⟨q, r⟩, g⟩, hfirst, hnext⟩ := Option.bind_eq_some_iff.mp hruns
  obtain ⟨⟨⟨q', r'⟩, g'⟩, hsecond, hboth⟩ := Option.map_eq_some_iff.mp hnext
  simp only [Prod.mk.injEq] at hboth
  obtain ⟨⟨rfl, hx⟩, rfl, hx'⟩ := hboth
  exact ⟨w, p, q, q', g, g', Nested.reachable .mul 3 5 1, rfl, rfl, hseeded, hfirst, hx,
    hsecond, hx'⟩

end GradientGraph
