import GradientGraph.Proofs.Plan.Reach
import GradientGraph.Proofs.Program.Setting

/-!
# What a plan that matches promises

A plan that still matches the graph has the recorded nodes alive, and with them whatever
their formulas read. A bound is not recorded. If the search reached it through a formula,
that formula keeps it alive; a bound that is a target may be kept alive by nobody.
-/

set_option autoImplicit false

namespace GradientGraph

open GradientGraph.Graph

section Plans

variable {K D : Type} {p : Program D} {g : Graph K D} {plan : Plan} {n : NodeId}

theorem Plan.reads_of_leads (hg : g.Sound) (hfresh : plan.isFresh g.arena = true)
    {g₀ : Graph K D} (hages : g₀.Ages g) (hbuild : p.build g₀ = .ok plan)
    (hinserted : g.arena.inserted - g₀.arena.inserted < UInt32.size)
    (hassigned : g.assigned - g₀.assigned < UInt64.size) (hn : n ∈ plan.order)
    (hlive : g.arena.contains n) {c : NodeId}
    (hleads : Plan.Leads g₀.arena (·.formula.isSome) p.sources n c) :
    ∃ a, g.formula? n = some a ∧ c ∈ a.expression.reads := by
  obtain ⟨⟨hbound, x, hx, hcomputed⟩, hc⟩ := hleads
  obtain ⟨x', y, hx', hy, hb | ⟨-, hchildren, hsame⟩⟩ := Plan.alike_of_fresh
    (Plan.build_describes hbuild) hages.later hinserted hassigned hfresh hn hlive
  · exact absurd hb hbound
  · obtain rfl : x = x' := Option.some.inj (hx.symm.trans hx')
    obtain ⟨a, ha⟩ := Option.isSome_iff_exists.mp (hsame.symm.trans hcomputed)
    have hformula : g.formula? n = some a := (formula?_of_node hy).trans ha
    refine ⟨a, hformula, Formula.mem_children.mp ?_⟩
    have hlinked := hg.linked n a hformula
    rw [Arena.children?, hy] at hlinked
    rw [Plan.childrenOf, Arena.children?, hx] at hc
    have hnow : y.children = a.children := Option.some.inj hlinked
    rw [← hnow, ← hchildren]
    exact hc

/-- Only a bound that is a target can be gone while a plan is fresh. -/
theorem Program.Recent.live (hp : p.Recent g) (hplan : p.plan? = some plan) (hg : g.Sound)
    (hclosed : ∀ m a, g.formula? m = some a → ∀ c ∈ a.expression.reads, g.arena.contains c)
    (hfresh : plan.isFresh g.arena = true) (hn : n ∈ plan.order) :
    g.arena.contains n ∨ n ∈ p.targets ∧ n ∈ p.sources := by
  obtain ⟨g₀, hages, hbuild, hinserted, hassigned⟩ := hp plan hplan
  have horders := Plan.build_orders hbuild
  have hrecorded {m : NodeId} (hm : m ∈ plan.order) (hb : m ∉ p.sources) :
      g.arena.contains m := by
    obtain ⟨v, hv⟩ := (Plan.build_describes hbuild).recorded m hm hb
    have hversion : g.arena.version? m = some v := by
      simpa using List.all_eq_true.mp hfresh (m, v) hv
    obtain ⟨x, hx, -⟩ := Option.map_eq_some_iff.mp hversion
    exact Arena.contains_iff.mpr ⟨x, hx⟩
  -- a node is in the plan as a target, or because one that is there reads it
  cases (horders.members n).mp hn with
  | target ht =>
    by_cases hb : n ∈ p.sources
    · exact .inr ⟨ht, hb⟩
    · exact .inl (hrecorded hn hb)
  | @child m _ hm hleads =>
    have hm := (horders.members m).mpr hm
    obtain ⟨a, ha, hc⟩ := Plan.reads_of_leads hg hfresh hages hbuild hinserted hassigned hm
      (hrecorded hm hleads.1.1) hleads
    exact .inl (hclosed m a ha n hc)

end Plans

namespace Setting

variable {K D : Type} [Zero K] [One K] [Add K] [Mul K] [MulAdd K] [Capacity K] [NatCast K]
  [Calculus K] [BEq K] [NumberText K] [Differential K D] [HostDerivative K D]
  {s : Setting K D} {f : ProgramKey} {p : Program D} {plan : Plan}

/-- What a program that is said to be compiled makes of a pass. If no target among its
bounds is gone, every node of the plan and every node read is there, and the pass does its
work and ends well; what it may still meet is shapes that do not fit. If one is gone, the
pass finds out and leaves all as it is. If any other node of the plan is gone, the program
is said not to be compiled, and every pass is refused as stale. -/
theorem compiled_foretells (h : s.Reachable) (hyoung : s.graph.Young)
    (hp : s.program? f = some p) (hplan : p.plan? = some plan) :
    (p.compiled s.graph = true → ∀ x : Pass, x.check p plan = .ok () →
      ((∀ t ∈ p.targets, t ∈ p.sources → s.graph.arena.contains t) →
        (∀ n ∈ plan.order, s.graph.arena.contains n ∧ ∀ a, s.graph.formula? n = some a →
          ∀ c ∈ a.expression.reads, s.graph.arena.contains c) ∧
        x.run p s.graph = (x.body p plan s.graph).map fun r => ((r.1, .ok ()), r.2)) ∧
      ∀ t ∈ p.targets, t ∈ p.sources → s.graph.arena.contains t = false →
        x.run p s.graph = some ((p, .error .nodeNotIndexed), s.graph)) ∧
    ∀ n ∈ plan.order, s.graph.arena.contains n = false → ¬(n ∈ p.targets ∧ n ∈ p.sources) →
      p.compiled s.graph = false ∧
        ∀ x : Pass, x.run p s.graph = some ((p, .error .stalePlan), s.graph) := by
  have hrecent := (h.remembers hp).recent hyoung
  have hclosed := Graph.Whole.closed h.whole
  have hstate : p.state = .compiled plan := by
    unfold Program.plan? at hplan
    split at hplan
    · cases hplan
      assumption
    · cases hplan
  rw [Program.compiled_eq hstate]
  constructor
  · intro hfresh x hcheck
    rw [Program.run_fresh hstate hfresh hcheck]
    constructor
    · intro hbounds
      have hlive : ∀ n ∈ plan.order, s.graph.arena.contains n := fun n hn =>
        (hrecent.live hplan h.sound hclosed hfresh hn).elim id fun hb => hbounds n hb.1 hb.2
      refine ⟨fun n hn => ⟨hlive n hn, hclosed n⟩, if_pos ?_⟩
      rw [Plan.isLive, List.all_eq_true]
      exact hlive
    · intro t ht _ hgone
      -- targets are in the plan, so the one that is gone is missed
      refine if_neg fun hlive => ?_
      rw [Plan.isLive, List.all_eq_true] at hlive
      obtain ⟨g₀, -, hbuild, -⟩ := hrecent plan hplan
      have hmem := ((Plan.build_orders hbuild).members t).mpr (.target ht)
      rw [hlive t hmem] at hgone
      cases hgone
  · intro n hn hgone hbound
    have hstale : plan.isFresh s.graph.arena = false := by
      by_contra hfresh
      rw [Bool.not_eq_false] at hfresh
      rcases hrecent.live hplan h.sound hclosed hfresh hn with hlive | hb
      · rw [hlive] at hgone
        cases hgone
      · exact hbound hb
    exact ⟨hstale, Program.run_stale hstate hstale⟩

end Setting

namespace Doubling.Alone

open Workbench

variable {K D : Type} (x : K)

def program : Program D where
  targets := .ofList [Twice.source]
  sources := .ofList [Twice.source]

def plan : Plan where
  order := [Twice.source]
  sources := .ofList [Twice.source]
  versions := []

def programs (state : PlanState) : Workbench K D :=
  { (literals x : Workbench K D) with programs := [("f", { program with state })] }

def dropped : Workbench K D where
  graph := { arena := { slots := #[⟨0, none⟩], vacant := [0], inserted := 1 } }
  programs := [("f", { program with state := .compiled plan })]

theorem compile_program :
    (program : Program D).compile (literals x : Workbench K D).graph =
      ({ program with state := .compiled plan }, .ok ()) := by
  let a := (literals x : Workbench K D).graph.arena
  let s : Plan.Search := { closed := [Twice.source], sources := .ofList [Twice.source] }
  have hall : Plan.Search.runAll a (·.formula.isSome) (.ofList [Twice.source])
      [Twice.source] {} = .ok s :=
    Plan.Search.runAll_next (t := s) List.not_mem_nil rfl (Plan.Search.run_done rfl)
  exact Program.compile_of_build (Plan.build_of_runAll rfl hall rfl)

variable [Zero K] [One K] [Add K] [Mul K] [MulAdd K] [Capacity K] [NatCast K] [Calculus K]
  [NumberText K] [Differential K D] [HostDerivative K D]

theorem step_compile : (programs x .absent : Workbench K D).step (.run "f" .compile) =
    some (programs x (.compiled plan), .ok .nothing) := by
  exact step_compile_ok rfl (compile_program x)

theorem step_dropped : (programs x (.compiled plan) : Workbench K D).step (.drop "x") =
    some (dropped, .ok .nothing) := by
  let unnamed : Workbench K D := { (programs x (.compiled plan) : Workbench K D) with items := [] }
  have hfree : ¬(Twice.source ∈ ([] : List NodeId) ∨ Twice.source ∈ itemNodes unnamed.items ∨
      Twice.source ∈ unnamed.graph.referenced) := by
    have hheld : itemNodes unnamed.items = [] := rfl
    have hreferenced : unnamed.graph.referenced = [] := rfl
    rw [hheld, hreferenced]
    decide
  have hlive : unnamed.graph.arena.contains Twice.source = true := rfl
  change some (unnamed.release [Twice.source], _) = _
  rw [Workbench.release, Graph.release, if_neg hfree, if_pos hlive]
  change some ({ unnamed with
    graph := (unnamed.graph.removeNode Twice.source).release [] [] }, _) = _
  rw [Graph.release]
  rfl

theorem reachable : (programs x (.compiled plan) : Workbench K D).Reachable := by
  have hliteral := Reachable.start.step _ (step_literal (D := D) x)
  have hprogram : (programs x .absent : Workbench K D).Reachable :=
    hliteral.step (.program ["x"] ["x"] "f") rfl
  exact hprogram.step _ (step_compile x)

end Doubling.Alone

theorem Setting.compiled_foretells_alone :
    let w : Workbench Float Float := Doubling.Alone.programs 3 (.compiled Doubling.Alone.plan)
    let p : Program Float :=
      { Doubling.Alone.program with state := .compiled Doubling.Alone.plan }
    w.Reachable ∧ w.graph.Young ∧ w.program? (.name "f") = some p ∧
      p.plan? = some Doubling.Alone.plan ∧ p.compiled w.graph = true ∧
      ∃ g, Pass.evaluate.run p w.graph = some ((p, .ok ()), g) := by
  intro w p
  have hw : w.Reachable := Doubling.Alone.reachable (D := Float) 3
  have hyoung : w.graph.Young := ⟨by decide, by decide⟩
  have hlive : w.graph.arena.contains Twice.source = true := rfl
  have hforetells := (compiled_foretells (s := .workbench w) (f := .name "f") (p := p)
    (.workbench hw) hyoung rfl rfl).1 rfl .evaluate rfl
  obtain ⟨-, hrun⟩ := hforetells.1 fun t ht _ => by
    obtain rfl := List.mem_singleton.mp ht
    exact hlive
  exact ⟨hw, hyoung, rfl, rfl, rfl, _, hrun⟩

/-- The only variable of a plan is gone. The program is said to be compiled, and cannot be
evaluated. -/
theorem Workbench.compiled_without_node :
    ∃ (w : Workbench Float Float) (p : Program Float) (plan : Plan) (n : NodeId),
      w.Reachable ∧ w.program? (.name "f") = some p ∧ p.plan? = some plan ∧
      n ∈ plan.order ∧ w.graph.arena.contains n = false ∧ p.compiled w.graph = true ∧
      Pass.evaluate.run p w.graph = some ((p, .error .nodeNotIndexed), w.graph) :=
  ⟨Doubling.Alone.dropped, _, Doubling.Alone.plan, Twice.source,
    (Doubling.Alone.reachable 3).step _ (Doubling.Alone.step_dropped 3), rfl, rfl,
    List.mem_singleton.mpr rfl, rfl, rfl, rfl⟩

end GradientGraph
