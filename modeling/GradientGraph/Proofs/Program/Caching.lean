import GradientGraph.Number.Shortest
import GradientGraph.Proofs.Derivative.Twice
import GradientGraph.Proofs.Session.Invariant
import GradientGraph.Proofs.Workbench.Invariant
import GradientGraph.Scalar.Float

/-!
# Old plans in reachable states

In every state that a host or a workbench can reach, a pass that goes ahead does so on
the plan that would be built from the present graph. Whether its program was compiled
long ago, just now or not at all is not to be seen from what it leaves.
-/

set_option autoImplicit false

namespace GradientGraph

section Reached

variable {K D : Type} [Zero K] [One K] [Add K] [Mul K] [MulAdd K] [Capacity K] [NatCast K]
  [Calculus K] [BEq K] [NumberText K] [Differential K D] [HostDerivative K D]

/-- A graph and the programs over it as they are between two steps. -/
inductive Reached : Graph K D → List (Program D) → Prop where
  | session {s : Session K D} (h : s.Reachable) :
    Reached s.world.graph s.world.programs.toList
  | workbench {w : Workbench K D} (h : w.Reachable) :
    Reached w.graph (w.programs.map (·.2))

variable {g : Graph K D} {ps : List (Program D)} {p : Program D}

theorem Reached.sound (h : Reached g ps) : g.Sound := by
  cases h with
  | session h => exact h.orderly.graph.sound
  | workbench h => exact h.orderly.graph.sound

theorem Reached.remembers (h : Reached g ps) (hp : p ∈ ps) : p.Remembers g := by
  cases h with
  | session h => exact h.orderly.programs p (Array.mem_toList_iff.mp hp)
  | workbench h =>
    obtain ⟨e, he, rfl⟩ := List.mem_map.mp hp
    exact h.orderly.programs e he

end Reached

/-- A search sees nothing but edges, versions and whether a variable is computed. -/
theorem Twice.compile_alike {K D : Type} {g : Graph K D} {x y : Node (Cell K D)}
    (hx : g.arena.node? source = some x) (hy : g.arena.node? target = some y)
    (hsource : x.version = 0 ∧ x.children = [] ∧ x.content.formula.isSome = false)
    (htarget : y.version = 1 ∧ y.children = [source] ∧ y.content.formula.isSome = true)
    (k : BinaryKernel) (v : Value K) (state : PlanState) :
    ({ program with state } : Program D).compile g =
      ({ program with state := .compiled plan }, .ok ()) := by
  have hbuild : (program : Program D).build g = .ok plan := by
    refine Plan.build_alike (build_eq (D := D) k v v none none) fun n hn => ?_
    obtain rfl | rfl : n = source ∨ n = target := by simpa [plan] using hn
    · exact ⟨_, x, rfl, hx, .inr ⟨hsource.1.symm, hsource.2.1.symm, hsource.2.2.symm⟩⟩
    · exact ⟨_, y, rfl, hy, .inr ⟨htarget.1.symm, htarget.2.1.symm, htarget.2.2.symm⟩⟩
  exact Program.compile_of_build hbuild

namespace Doubling

open GradientGraph.Graph Workbench

variable {K D : Type} [Zero K] [Calculus K] (op : BinOp) (x : K)

def formula : Formula K :=
  .share 2 (.binary (.cwise op) (.read 0 Twice.source) (.read 1 Twice.source))

def literals : Workbench K D where
  graph := { arena := (({} : Arena (Cell K D)).insert { value := .scalar x }).2 }
  items := [("x", .var .scalar Twice.source)]

def operations : Workbench K D where
  graph := { (literals x : Workbench K D).graph with nextLabel := 3 }
  items := [("x", .var .scalar Twice.source), ("e", .operation .scalar (formula op))]

def computed : Workbench K D where
  graph := {
    arena :=
      { slots := #[⟨0, some { content := { value := .scalar x } }⟩,
          ⟨0, some
            { content := { value := Twice.doubled op (.scalar x), formula := some (formula op) }
              children := [Twice.source]
              version := 1 }⟩]
        inserted := 2 }
    nextLabel := 3 }
  items := [("x", .var .scalar Twice.source), ("e", .operation .scalar (formula op)),
    ("y", .var .scalar Twice.target)]

def programs (state : PlanState) : Workbench K D where
  graph := (computed op x : Workbench K D).graph
  items := (computed op x : Workbench K D).items
  programs := [("f", { (Twice.program : Program D) with state })]

theorem compile_program (state : PlanState) :
    ({ (Twice.program : Program D) with state } : Program D).compile
      (computed op x : Workbench K D).graph =
      ({ Twice.program with state := .compiled Twice.plan }, .ok ()) :=
  Twice.compile_alike rfl rfl ⟨rfl, rfl, rfl⟩ ⟨rfl, rfl, rfl⟩ (.cwise op) (.scalar x) state

variable [Add K] [Mul K] [MulAdd K] [Capacity K] [NatCast K]

theorem newComputed_formula : newComputed (formula op) (operations op x : Workbench K D).graph =
    some (Twice.target, (computed op x : Workbench K D).graph) := by
  have hevaluate : (formula op).expression.evaluate (operations op x : Workbench K D).graph =
      some (Twice.doubled op (.scalar x), (operations op x : Workbench K D).graph.remember 2
        (Twice.doubled op (.scalar x))) := rfl
  have hforget : ((operations op x : Workbench K D).graph.remember 2
      (Twice.doubled op (.scalar x))).forget (formula op) =
      (operations op x : Workbench K D).graph := by
    simp [Graph.forget, remember, operations, literals, formula, Formula.labels, Formula.share,
      Footprint.insert]
  rw [newComputed_run hevaluate, hforget]
  rfl

variable [One K] [NumberText K] [Differential K D] [HostDerivative K D]

theorem step_literal : ({} : Workbench K D).step (.newVariable (.literal (.scalar x)) "x") =
    some (literals x, .ok (.text "variable")) := by
  change some (({ graph := (literals x : Workbench K D).graph } : Workbench K D).store "x" _, _) = _
  rw [store_new _ rfl]
  rfl

theorem step_operation :
    (literals x : Workbench K D).step (.binary (.operator op) (.ref "x") (.ref "x") "e") =
      some (operations op x, .ok (.text "operation")) := by
  change some (({ literals x with graph := (operations op x : Workbench K D).graph } :
    Workbench K D).store "e" (.operation .scalar (formula op)), _) = _
  rw [store_new _ rfl]
  rfl

theorem step_variable : (operations op x : Workbench K D).step (.newVariable (.ref "e") "y") =
    some (computed op x, .ok (.text "variable")) := by
  change (operations op x : Workbench K D).make "y"
    (do return .var .scalar (← newComputed (formula op))) = _
  rw [make, Workbench.onGraph, run_bind, newComputed_formula]
  change some (({ operations op x with graph := (computed op x : Workbench K D).graph } :
    Workbench K D).store "y" (.var .scalar Twice.target), _) = _
  rw [store_new _ rfl]
  rfl

theorem step_compile : (programs op x .absent : Workbench K D).step (.run "f" .compile) =
    some (programs op x (.compiled Twice.plan), .ok .nothing) := by
  exact step_compile_ok rfl (compile_program op x .absent)

theorem reachable : (programs op x (.compiled Twice.plan) : Workbench K D).Reachable := by
  have hliteral := Reachable.start.step _ (step_literal (D := D) x)
  have hvariable := (hliteral.step _ (step_operation op x)).step _ (step_variable op x)
  have hprogram : (programs op x .absent : Workbench K D).Reachable :=
    hvariable.step (.program ["y"] [] "f") rfl
  exact hprogram.step _ (step_compile op x)

end Doubling

section Passes

variable {K D : Type} [Zero K] [One K] [Add K] [Mul K] [MulAdd K] [Capacity K] [NatCast K]
  [Calculus K] [BEq K] [NumberText K] [Differential K D] [HostDerivative K D]
  {g g' : Graph K D} {ps : List (Program D)} {p q : Program D}

/-- A pass that goes ahead goes ahead on the plan that compilation would make now. If
its program has a plan, that is the one, and compiling the program first changes neither
the program nor anything that the pass leaves. -/
theorem Program.pass_as_if_compiled (hr : Reached g ps) (hg : g.Young) (hp : p ∈ ps) {x : Pass}
    (h : x.run p g = some ((q, .ok ()), g')) :
    ∃ plan, p.build g = .ok plan ∧
      x.body { p with state := .compiled plan } plan g = some (q, g') ∧
      (∀ made, p.state = .compiled made → made = plan ∧ p.compile g = (p, .ok ())) ∧
      x.run (p.compile g).1 g = some ((q, .ok ()), g') := by
  obtain ⟨plan, hcurrent, hbody, hrun⟩ := Program.run_compile ((hr.remembers hp).recent hg) h
  exact ⟨plan, hcurrent.build, hbody, fun made hmade => hcurrent.compile_self hmade, hrun⟩

end Passes

theorem Program.pass_as_if_compiled_doubling :
    let g : Graph Float Float := (Doubling.computed .add 3).graph
    let p : Program Float := { Twice.program with state := .compiled Twice.plan }
    Reached g [p] ∧ g.Young ∧ ∃ g', Pass.evaluate.run p g = some ((p, .ok ()), g') ∧
      p.compile g = (p, .ok ()) ∧ Pass.evaluate.run (p.compile g).1 g = some ((p, .ok ()), g') := by
  intro g p
  have hr : Reached g [p] := .workbench (Doubling.reachable (D := Float) .add 3)
  have hg : g.Young := ⟨by decide, by decide⟩
  have hrun : Pass.evaluate.run p g = some ((p, .ok ()), _) := rfl
  obtain ⟨plan, -, -, hsame, hcompiled⟩ :=
    Program.pass_as_if_compiled hr hg (List.mem_singleton.mpr rfl) hrun
  exact ⟨hr, hg, _, hrun, (hsame Twice.plan rfl).2, hcompiled⟩

end GradientGraph
