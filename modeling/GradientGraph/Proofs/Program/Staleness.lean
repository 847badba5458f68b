import GradientGraph.Proofs.Plan.Reach
import GradientGraph.Proofs.Program.Setting

/-!
# When a plan stops matching the graph

A plan matches as long as no node whose version it recorded was dropped or had its edges
rebuilt. A version that was counted up, and a slot that was filled again, do not come
back to what they were before as many assignments or insertions as there are versions or
generations. So a plan that has stopped matching never matches again.
-/

set_option autoImplicit false

namespace GradientGraph

open GradientGraph.Graph

theorem Deed.mem_rebuilt {K D : Type} {deed : Deed D} {g : Graph K D} {n : NodeId} :
    n ∈ deed.rebuilt g ↔
      deed = .assignFormula n ∨ deed = .assignLiteral n ∧ (g.formula? n).isSome := by
  cases deed with
  | assignLiteral m =>
    constructor
    · rintro ⟨rfl, h⟩
      exact .inr ⟨rfl, h⟩
    · rintro (h | ⟨h, hsome⟩)
      · cases h
      · cases h
        exact ⟨rfl, hsome⟩
  | assignFormula m =>
    constructor
    · rintro rfl
      exact .inl rfl
    · rintro (h | ⟨h, -⟩)
      · cases h
        rfl
      · cases h
  | _ => simp [rebuilt]

theorem Plan.isFresh_congr {α : Type} {plan : Plan} {a b : Arena α}
    (h : ∀ q ∈ plan.versions, b.version? q.1 = a.version? q.1) :
    plan.isFresh b = plan.isFresh a := by
  unfold isFresh
  rw [Bool.eq_iff_iff, List.all_eq_true, List.all_eq_true]
  exact forall₂_congr fun (n, v) hq => by simp only [h (n, v) hq]

section Assignments

variable {K D : Type} {g g' : Graph K D} {n m : NodeId} {displaced : List NodeId}

theorem version?_modify_ne {a : Arena (Cell K D)} {f : Node (Cell K D) → Node (Cell K D)}
    (hm : m ≠ n) : (a.modify n f).version? m = a.version? m := by
  rw [Arena.version?, Arena.node?_modify, if_neg hm, Arena.version?]

theorem assignLiteral_literal (hn : g.formula? n = none) (v : Value K) :
    ∃ g', (Graph.assignLiteral n v : GraphM K D (List NodeId)) g = some ([], g') ∧
      ∀ m, g'.arena.version? m = g.arena.version? m := by
  refine ⟨g.countAssignment.updateCell n fun c => { c with value := v, formula := none }, ?_,
    fun m => ?_⟩
  · simp only [assignLiteral_run, hn]
  · rw [Arena.version?, updateCell, Arena.node?_modify, Arena.version?]
    split
    · rw [Option.map_map]
      rfl
    · rfl

theorem version?_assignLiteral {v : Value K}
    (h : (Graph.assignLiteral n v : GraphM K D (List NodeId)) g = some (displaced, g'))
    (hm : m ≠ n) : g'.arena.version? m = g.arena.version? m := by
  have h := Option.some.inj ((assignLiteral_run n v g).symm.trans h)
  cases hn : g.formula? n with
  | none =>
    simp only [hn] at h
    cases h
    exact version?_modify_ne hm
  | some a =>
    simp only [hn] at h
    cases h
    exact (version?_modify_ne hm).trans (version?_modify_ne hm)

theorem version?_assignFormula [Zero K] [Add K] [Mul K] [MulAdd K] [Capacity K] [NatCast K]
    [Calculus K] {a : Formula K}
    (h : (Graph.assignFormula n a : GraphM K D (List NodeId)) g = some (displaced, g'))
    (hm : m ≠ n) : g'.arena.version? m = g.arena.version? m := by
  obtain ⟨v, g₁, hv, h⟩ := exists_of_bind h
  obtain ⟨_, _, hcount, h⟩ := exists_of_bind h
  cases hcount
  obtain ⟨displaced, hrun⟩ := attach_run n a v g₁.countAssignment
  rw [hrun] at h
  cases h
  rw [← arena_of_evaluate hv]
  exact version?_modify_ne hm

theorem version?_assigned [Zero K] [Add K] [Mul K] [MulAdd K] [Capacity K] [NatCast K]
    [Calculus K]
    (h : (∃ v, (Graph.assignLiteral n v : GraphM K D (List NodeId)) g = some (displaced, g')) ∨
      ∃ a, (Graph.assignFormula n a : GraphM K D (List NodeId)) g = some (displaced, g'))
    (hm : m ≠ n) : g'.arena.version? m = g.arena.version? m := by
  rcases h with ⟨v, h⟩ | ⟨a, h⟩
  · exact version?_assignLiteral h hm
  · exact version?_assignFormula h hm

end Assignments

namespace Setting

variable {K D : Type} [Zero K] [One K] [Add K] [Mul K] [MulAdd K] [Capacity K] [NatCast K]
  [Calculus K] [BEq K] [NumberText K] [Differential K D] [HostDerivative K D]

/-- Whether the move drops the node or rebuilds its edges. -/
inductive Move.Breaks (m : Move K D) (n : NodeId) : Prop where
  | dropped (h : m.before.graph.arena.contains n) (hgone : m.after.graph.arena.contains n = false)
  | formula (h : m.deed = .assignFormula n)
  | literal (h : m.deed = .assignLiteral n) (hcomputed : (m.before.graph.formula? n).isSome)

/-- Whether too few nodes were inserted and too few assignments made in between for a
generation or a version to have come round. -/
def Near (s t : Setting K D) : Prop :=
  t.graph.arena.inserted - s.graph.arena.inserted < UInt32.size ∧
    t.graph.assigned - s.graph.assigned < UInt64.size

variable {s t : Setting K D} {m : Move K D} {ms : List (Move K D)} {n : NodeId} {v : UInt64}
  {f : ProgramKey} {p : Program D} {plan : Plan}

theorem Move.version_kept (h : m.before.Reachable) (hn : ¬m.Breaks n)
    (hv : m.before.graph.arena.version? n = some v) :
    m.after.graph.arena.version? n = some v := by
  obtain ⟨x, hx, rfl⟩ := Option.map_eq_some_iff.mp hv
  cases hlive : m.after.graph.arena.contains n with
  | false => exact absurd (.dropped (Arena.contains_iff.mpr ⟨x, hx⟩) hlive) hn
  | true =>
    obtain ⟨y, hy⟩ := Arena.contains_iff.mp hlive
    have hkept : n ∉ m.deed.rebuilt m.before.scene.graph := fun hmem =>
      hn ((Deed.mem_rebuilt.mp hmem).elim .formula fun h => .literal h.1 h.2)
    rw [Arena.version?, hy, Option.map_some, (((leads h).alters.nodes n x y hx hy).edges hkept).1]

theorem Move.version_broken (h : m.before.Reachable) (hn : m.Breaks n)
    (hv : m.before.graph.arena.version? n = some v) :
    m.after.graph.arena.version? n ≠ some v := by
  intro hafter
  obtain ⟨x, hx, rfl⟩ := Option.map_eq_some_iff.mp hv
  obtain ⟨y, hy, hversion⟩ := Option.map_eq_some_iff.mp hafter
  have hbecomes := (leads h).alters.nodes n x y hx hy
  cases hn with
  | dropped _ hgone =>
    rw [Arena.contains_iff.mpr ⟨y, hy⟩] at hgone
    cases hgone
  | formula hdeed => exact hbecomes.version (Deed.mem_rebuilt.mpr (.inl hdeed)) hversion
  | literal hdeed hcomputed =>
    exact hbecomes.version (Deed.mem_rebuilt.mpr (.inr ⟨hdeed, hcomputed⟩)) hversion

theorem Run.after_first (h : Run m.after ms t) : Run m.before (ms ++ [m]) t := by
  induction h with
  | nil => exact .cons (.nil _)
  | cons _ ih => exact .cons ih

/-- A version is still there exactly if no move has broken the node. -/
theorem Run.version_iff (h : Run s ms t) (hs : s.Reachable) (hnear : s.Near t)
    (hv : s.graph.arena.version? n = some v) :
    t.graph.arena.version? n = some v ↔ ∀ m ∈ ms, ¬m.Breaks n := by
  induction h with
  | nil => simpa using hv
  | @cons ms m hrun ih =>
    have hbefore := hrun.reachable hs
    have hages := hrun.ages hs
    have hmove : m.before.graph.Ages m.after.graph := (Move.leads hbefore).alters.ages
    have hi := hages.inserted
    have hi' := hmove.inserted
    have ha := hages.assigned
    have ha' := hmove.assigned
    obtain ⟨hinserted, hassigned⟩ := hnear
    have ih := ih ⟨by omega, by omega⟩
    rw [List.forall_mem_cons]
    constructor
    · intro hafter
      have hbetween : m.before.graph.arena.version? n = some v :=
        hages.later.between hmove.later (by omega) (by omega) hv hafter
      exact ⟨fun hbreaks => Move.version_broken hbefore hbreaks hbetween hafter, ih.mp hbetween⟩
    · rintro ⟨hlast, hearlier⟩
      exact Move.version_kept hbefore hlast (ih.mpr hearlier)

theorem Move.keeps_plan (h : m.before.Reachable) (hp : m.before.program? f = some p)
    (hplan : p.state = .compiled plan) (hcompile : m.deed ≠ .compile f)
    (hreplace : m.deed ≠ .replace f) :
    ∃ q, m.after.program? f = some q ∧ q.state = .compiled plan ∧ q.targets = p.targets ∧
      q.sources = p.sources := by
  rcases program_cases h hp hreplace with hq | ⟨hdeed, -⟩ | ⟨x, q, r, g, -, hrun, -, hq, -⟩
  · exact ⟨p, hq, hplan, rfl, rfl⟩
  · exact absurd hdeed hcompile
  · obtain ⟨hstate, htargets, hsources, -⟩ := Program.run_program hrun
    refine ⟨q, hq, ?_, htargets, hsources⟩
    have hsome : p.plan? = some plan := by rw [Program.plan?, hplan]
    rw [hstate, Program.ready_of_plan hsome, Program.consult_fst, hplan]

theorem Run.keeps_plan (h : Run s ms t) (hs : s.Reachable) (hp : s.program? f = some p)
    (hplan : p.state = .compiled plan)
    (hkept : ∀ m ∈ ms, m.deed ≠ .compile f ∧ m.deed ≠ .replace f) :
    ∃ q, t.program? f = some q ∧ q.state = .compiled plan ∧ q.targets = p.targets ∧
      q.sources = p.sources := by
  induction h with
  | nil => exact ⟨p, hp, hplan, rfl, rfl⟩
  | @cons ms m hrun ih =>
    rw [List.forall_mem_cons] at hkept
    obtain ⟨⟨hcompile, hreplace⟩, hearlier⟩ := hkept
    obtain ⟨q, hq, hstate, htargets, hsources⟩ := ih hearlier
    obtain ⟨r, hr, hstate, htargets', hsources'⟩ :=
      Move.keeps_plan (hrun.reachable hs) hq hstate hcompile hreplace
    exact ⟨r, hr, hstate, htargets'.trans htargets, hsources'.trans hsources⟩

/-- Whether the move makes the plan of a program: it compiles it, or has it make a pass
without having been compiled. -/
def Move.Plans (m : Move K D) (f : ProgramKey) (p : Program D) (plan : Plan) : Prop :=
  m.before.program? f = some p ∧ p.build m.before.graph = .ok plan ∧
    (m.deed = .compile f ∨ p.plan? = none ∧ ∃ x, m.deed = .pass f x)

theorem Move.Plans.after (hm : m.Plans f p plan) (h : m.before.Reachable) :
    ∃ q, m.after.program? f = some q ∧ q.state = .compiled plan ∧ q.sources = p.sources := by
  obtain ⟨hp, hbuild, hdeed⟩ := hm
  have hcompile := Program.compile_of_build hbuild
  have hleads := leads h
  rcases hdeed with hdeed | ⟨hnone, x, hdeed⟩
  · rw [hdeed] at hleads
    obtain ⟨hq, -⟩ := hleads.compiles hp
    rw [hcompile] at hq
    exact ⟨_, hq, rfl, rfl⟩
  · rw [hdeed] at hleads
    obtain ⟨q, r, g, hrun, -, hq, -⟩ := hleads.passes hp
    obtain ⟨hstate, -, hsources, -⟩ := Program.run_program hrun
    rw [Program.ready_of_none hnone, Program.consult_fst, hcompile] at hstate
    exact ⟨q, hq, hstate, hsources⟩

/-- A plan matches the graph exactly if no move has broken a node whose version it
recorded. -/
theorem Move.Plans.fresh_iff (hm : m.Plans f p plan) (h : m.before.Reachable)
    (hrun : Run m.after ms t) (hnear : m.before.Near t) :
    plan.isFresh t.graph.arena = true ↔
      ∀ k ∈ m :: ms, ∀ n ∈ plan.order, n ∉ p.sources → ¬k.Breaks n := by
  have horders : plan.Orders m.before.graph.arena (·.formula.isSome) p.targets p.sources :=
    Plan.build_orders hm.2.1
  have hversion {n : NodeId} {v : UInt64} (hv : (n, v) ∈ plan.versions) :
      t.graph.arena.version? n = some v ↔ ∀ k ∈ m :: ms, ¬k.Breaks n := by
    rw [hrun.after_first.version_iff h hnear ((horders.versions n v).mp hv).2.2]
    simp [or_comm]
  rw [Plan.isFresh, List.all_eq_true]
  constructor
  · intro hfresh k hk n hn hb
    obtain ⟨v, hv⟩ := (Plan.build_describes hm.2.1).recorded n hn hb
    exact (hversion hv).mp (by simpa using hfresh _ hv) k hk
  · rintro hunbroken ⟨n, v⟩ hv
    obtain ⟨hreach, hb, -⟩ := (horders.versions n v).mp hv
    have hmatch := (hversion hv).mpr fun k hk =>
      hunbroken k hk n ((horders.members n).mpr hreach) hb
    simpa using hmatch

theorem Run.split {later earlier : List (Move K D)} (h : Run s (later ++ earlier) t) :
    ∃ u, Run s earlier u ∧ Run u later t := by
  induction later generalizing t with
  | nil => exact ⟨t, h, .nil t⟩
  | cons m later ih =>
    cases h with
    | cons h =>
      obtain ⟨u, hu, hlater⟩ := ih h
      exact ⟨u, hu, .cons hlater⟩

theorem Near.earlier {u : Setting K D} (h : s.Near t) (hut : Run u ms t) (hu : u.Reachable) :
    s.Near u := by
  have hages := hut.ages hu
  have hi := hages.inserted
  have ha := hages.assigned
  obtain ⟨hinserted, hassigned⟩ := h
  exact ⟨by omega, by omega⟩

/-- A plan that has stopped matching the graph does not match it later. -/
theorem Move.Plans.stale_later {u : Setting K D} {later earlier : List (Move K D)}
    (hm : m.Plans f p plan) (h : m.before.Reachable) (hrun : Run m.after (later ++ earlier) t)
    (hu : Run m.after earlier u) (hlater : Run u later t) (hnear : m.before.Near t)
    (hstale : plan.isFresh u.graph.arena = false) : plan.isFresh t.graph.arena = false := by
  by_contra hlate
  rw [Bool.not_eq_false, hm.fresh_iff h hrun hnear] at hlate
  have hreachable := hu.reachable (Move.reachable h)
  have hearly := (hm.fresh_iff h hu (hnear.earlier hlater hreachable)).mpr fun k hk =>
    hlate k (List.mem_cons.mpr ((List.mem_cons.mp hk).imp_right (List.mem_append_right later)))
  rw [hearly] at hstale
  cases hstale

/-- After a plan was made it matches the graph exactly if no node of it outside the bounds
was dropped, given a formula, or given a literal while it had a formula. As soon as it
does not, every pass is refused and nothing happens, whatever moves are made, until the
program is compiled again. An assignment of a literal to a literal variable displaces
nothing and rebuilds no edges; an assignment to a bound rebuilds no edges but its own, and
so the match can only be lost to it where a node goes that it displaced. -/
theorem compiled_iff_unbroken (hm : m.Plans f p plan) (h : m.before.Reachable)
    (hrun : Run m.after ms t) (hnear : m.before.Near t)
    (hkept : ∀ k ∈ ms, k.deed ≠ .compile f ∧ k.deed ≠ .replace f) :
    ∃ q, t.program? f = some q ∧ q.plan? = some plan ∧
      (q.compiled t.graph = true ↔
        ∀ k ∈ m :: ms, ∀ n ∈ plan.order, n ∉ p.sources → ¬k.Breaks n) ∧
      (q.compiled t.graph = false →
        ∀ x : Pass, x.run q t.graph = some ((q, .error .stalePlan), t.graph)) ∧
      (∀ later earlier, ms = later ++ earlier → ∃ u r, Run m.after earlier u ∧ Run u later t ∧
        u.program? f = some r ∧ (r.compiled u.graph = false → q.compiled t.graph = false)) ∧
      (∀ n v, t.graph.formula? n = none → ∃ g,
        Graph.assignLiteral n v t.graph = some ([], g) ∧ q.compiled g = q.compiled t.graph) ∧
      ∀ n ∈ p.sources, ∀ displaced g,
        ((∃ v, Graph.assignLiteral n v t.graph = some (displaced, g)) ∨
          ∃ a, Graph.assignFormula n a t.graph = some (displaced, g)) →
        q.compiled g = q.compiled t.graph := by
  have hafter := Move.reachable h
  obtain ⟨p', hp', hstate, -⟩ := hm.after h
  obtain ⟨q, hq, hstate', -⟩ := hrun.keeps_plan hafter hp' hstate hkept
  have hcompiled (g : Graph K D) : q.compiled g = plan.isFresh g.arena :=
    Program.compiled_eq hstate'
  have hfresh := hm.fresh_iff h hrun hnear
  refine ⟨q, hq, by rw [Program.plan?, hstate'], ?_, fun hstale => ?_, ?_, ?_, ?_⟩
  · rw [hcompiled]
    exact hfresh
  · rw [hcompiled] at hstale
    exact Program.run_stale hstate' hstale
  · rintro later earlier rfl
    obtain ⟨u, hu, hlater⟩ := hrun.split
    obtain ⟨r, hr, hstate'', -⟩ := hu.keeps_plan hafter hp' hstate
      fun k hk => hkept k (List.mem_append_right _ hk)
    refine ⟨u, r, hu, hlater, hr, fun hstale => ?_⟩
    rw [Program.compiled_eq hstate''] at hstale
    rw [hcompiled]
    exact hm.stale_later h hrun hu hlater hnear hstale
  -- a literal that takes the place of a literal changes no version
  · intro n v hn
    obtain ⟨g, hassign, hversions⟩ := assignLiteral_literal hn v
    refine ⟨g, hassign, ?_⟩
    rw [hcompiled, hcompiled]
    exact Plan.isFresh_congr fun k _ => hversions k.1
  -- of bounds no version is recorded
  · intro n hn displaced g hassign
    rw [hcompiled, hcompiled]
    refine Plan.isFresh_congr fun k hk => version?_assigned hassign ?_
    rintro rfl
    exact ((Plan.build_orders hm.2.1).versions k.1 k.2 |>.mp hk).2.1 hn

end Setting

namespace Doubling.Bounded

open Workbench

variable {K D : Type} [Zero K] [Calculus K] (op : BinOp) (x y : K)

def program : Program D where
  targets := .ofList [Twice.source, Twice.target]
  sources := .ofList [Twice.target]

def plan : Plan where
  order := [Twice.source, Twice.target]
  sources := .ofList [Twice.source, Twice.target]
  versions := [(Twice.source, 0)]

def unnamed : Workbench K D :=
  { (Doubling.computed op x : Workbench K D) with
    items := [("x", .var .scalar Twice.source), ("y", .var .scalar Twice.target)] }

def programs (state : PlanState) : Workbench K D :=
  { (unnamed op x : Workbench K D) with programs := [("f", { program with state })] }

def owned : Workbench K D :=
  { (programs op x (.compiled plan) : Workbench K D) with
    items := [("y", .var .scalar Twice.target)] }

def orphaned : Workbench K D :=
  { (owned op x : Workbench K D) with
    graph := {
      arena :=
        { slots := #[⟨0, none⟩, ⟨0, some { content := { value := .scalar y }, version := 2 }⟩]
          vacant := [0]
          inserted := 2 }
      nextLabel := 3
      assigned := 1 } }

theorem build_eq :
    (program : Program D).build (unnamed op x : Workbench K D).graph = .ok plan := by
  let a := (unnamed op x : Workbench K D).graph.arena
  let s₁ : Plan.Search :=
    { closed := [Twice.source], sources := .ofList [Twice.source],
      versions := [(Twice.source, 0)] }
  let s₂ : Plan.Search :=
    { s₁ with
      closed := [Twice.target, Twice.source]
      sources := .ofList [Twice.source, Twice.target] }
  have hall : Plan.Search.runAll a (·.formula.isSome) (.ofList [Twice.target])
      [Twice.source, Twice.target] {} = .ok s₂ := by
    rw [Plan.Search.runAll_next (t := s₁) List.not_mem_nil rfl (Plan.Search.run_done rfl),
      Plan.Search.runAll_next (t := s₂) (by decide) rfl (Plan.Search.run_done rfl),
      Plan.Search.runAll]
  exact Plan.build_of_runAll rfl hall rfl

variable [One K] [Add K] [Mul K] [MulAdd K] [Capacity K] [NatCast K] [NumberText K]
  [Differential K D] [HostDerivative K D]

theorem step_unnamed : (Doubling.computed op x : Workbench K D).step (.drop "e") =
    some (unnamed op x, .ok .nothing) := by
  have hheld : Twice.source ∈ itemNodes (unnamed op x : Workbench K D).items :=
    List.mem_cons_self ..
  change some ((unnamed op x : Workbench K D).release [Twice.source], _) = _
  rw [Workbench.release, Graph.release, if_pos (.inr (.inl hheld)), Graph.release]

theorem step_compile : (programs op x .absent : Workbench K D).step (.run "f" .compile) =
    some (programs op x (.compiled plan), .ok .nothing) := by
  exact step_compile_ok rfl (Program.compile_of_build (build_eq op x))

theorem step_owned : (programs op x (.compiled plan) : Workbench K D).step (.drop "x") =
    some (owned op x, .ok .nothing) := by
  have howned : Twice.source ∈ (owned op x : Workbench K D).graph.referenced :=
    List.mem_cons_self ..
  change some ((owned op x : Workbench K D).release [Twice.source], _) = _
  rw [Workbench.release, Graph.release, if_pos (.inr (.inr howned)), Graph.release]

theorem step_orphaned : (owned op x : Workbench K D).step (.assign "y" (.literal (.scalar y))) =
    some (orphaned op x y, .ok .nothing) := by
  let assigned : Workbench K D :=
    { (owned op x : Workbench K D) with
      graph := {
        arena :=
          { slots := #[⟨0, some { content := { value := .scalar x } }⟩,
              ⟨0, some { content := { value := .scalar y }, version := 2 }⟩]
            inserted := 2 }
        nextLabel := 3
        assigned := 1 } }
  have hfree : ¬(Twice.source ∈ ([] : List NodeId) ∨ Twice.source ∈ itemNodes assigned.items ∨
      Twice.source ∈ assigned.graph.referenced) := by
    have hheld : itemNodes assigned.items = [Twice.target] := rfl
    have hreferenced : assigned.graph.referenced = [] := rfl
    rw [hheld, hreferenced]
    decide
  change some (assigned.release [Twice.source], _) = _
  have hlive : assigned.graph.arena.contains Twice.source = true := rfl
  rw [Workbench.release, Graph.release, if_neg hfree, if_pos hlive]
  change some ({ assigned with
    graph := (assigned.graph.removeNode Twice.source).release [Twice.target] [] }, _) = _
  rw [Graph.release]
  rfl

theorem reachable_absent : (programs op x .absent : Workbench K D).Reachable := by
  have hliteral := Reachable.start.step _ (step_literal (D := D) x)
  have hvariable := (hliteral.step _ (step_operation op x)).step _ (step_variable op x)
  exact (hvariable.step _ (step_unnamed op x)).step (.program ["x", "y"] ["y"] "f") rfl

theorem reachable_owned : (owned op x : Workbench K D).Reachable :=
  ((reachable_absent op x).step _ (step_compile op x)).step _ (step_owned op x)

end Doubling.Bounded

/-- The plan is made, a node outside the bounds goes, and every pass is refused. -/
theorem Setting.compiled_iff_unbroken_bounded :
    let s : Setting Float Float := .workbench (Doubling.Bounded.programs .add 3 .absent)
    let t : Setting Float Float := .workbench (Doubling.Bounded.orphaned .add 3 5)
    ∃ (m : Move Float Float) (ms : List (Move Float Float)) (q : Program Float),
      m.before = s ∧ s.Reachable ∧
      m.Plans (.name "f") Doubling.Bounded.program Doubling.Bounded.plan ∧
      Run m.after ms t ∧ s.Near t ∧ t.program? (.name "f") = some q ∧
      q.plan? = some Doubling.Bounded.plan ∧ q.compiled t.graph = false ∧
      ∀ x : Pass, x.run q t.graph = some ((q, .error .stalePlan), t.graph) := by
  intro s t
  let m : Move Float Float := .workbench (Doubling.Bounded.step_compile .add 3)
  let drop : Move Float Float := .workbench (Doubling.Bounded.step_owned .add 3)
  let assign : Move Float Float := .workbench (Doubling.Bounded.step_orphaned .add 3 5)
  have hs : s.Reachable := .workbench (Doubling.Bounded.reachable_absent .add 3)
  have hm : m.Plans (.name "f") Doubling.Bounded.program Doubling.Bounded.plan :=
    ⟨rfl, Doubling.Bounded.build_eq .add 3, .inl rfl⟩
  have hrun : Run m.after [assign, drop] t := .cons (m := assign) (.cons (m := drop) (.nil _))
  have hnear : s.Near t := ⟨by decide, by decide⟩
  have hkept : ∀ k ∈ [assign, drop],
      k.deed ≠ .compile (.name "f") ∧ k.deed ≠ .replace (.name "f") := by
    have hother : (.replace (.name "x") : Deed Float) ≠ .replace (.name "f") := by simp
    exact List.forall_mem_cons.mpr ⟨⟨nofun, nofun⟩, List.forall_mem_singleton.mpr ⟨nofun, hother⟩⟩
  obtain ⟨q, hq, hplan, -, hrefused, -⟩ := compiled_iff_unbroken hm hs hrun hnear hkept
  have hstale : q.compiled t.graph = false := by
    obtain rfl := Option.some.inj hq
    rfl
  exact ⟨m, [assign, drop], q, rfl, hs, hm, hrun, hnear, hq, hplan, hstale, hrefused hstale⟩

/-- An assignment to a bound breaks the match where the bound was the last to refer to a
node of the plan. -/
theorem Workbench.compiled_lost_by_bound :
    ∃ (w w' : Workbench Float Float) (p : Program Float) (n : NodeId),
      w.Reachable ∧ w.program? (.name "f") = some p ∧ w'.program? (.name "f") = some p ∧
      w.item "y" = .ok (.var .scalar n) ∧ n ∈ p.sources ∧ p.compiled w.graph = true ∧
      w.step (.assign "y" (.literal (.scalar 5))) = some (w', .ok .nothing) ∧
      p.compiled w'.graph = false :=
  ⟨Doubling.Bounded.owned .add 3, Doubling.Bounded.orphaned .add 3 5, _, Twice.target,
    Doubling.Bounded.reachable_owned .add 3, rfl, rfl, rfl, List.mem_singleton.mpr rfl, rfl,
    Doubling.Bounded.step_orphaned .add 3 5, rfl⟩

end GradientGraph
