import GradientGraph.Proofs.Program.Settled

/-!
# After formulas were evaluated by themselves

A wrapper or an evaluator that is evaluated or traversed by itself goes on remembering
what it found, and the variables that it read may change in the meantime. A variable that
is then given the formula, and a node that a program then computes by it, get what is
remembered, and the formula forgets. So a value may be out of date, but whatever comes
next starts from what the variables hold.
-/

set_option autoImplicit false

namespace GradientGraph

open GradientGraph.Graph

namespace Wrapping

open Workbench

variable {K D : Type} [Zero K] [Calculus K] (op : BinOp) (xs ys : Array K)

def literals : Workbench K D where
  graph := { arena := (({} : Arena (Cell K D)).insert { value := .vector xs }).2 }
  items := [("x", .var .vector Twice.source)]

def wrapped : Workbench K D where
  graph := { (literals xs : Workbench K D).graph with nextLabel := 3 }
  items := [("x", .var .vector Twice.source), ("e", .operation .vector (Doubling.formula op)),
    ("w", .wrapper .vector (Doubling.formula op))]

def read : Workbench K D where
  graph := (wrapped op xs : Workbench K D).graph.remember 2 (Twice.doubled op (.vector xs))
  items := (wrapped op xs : Workbench K D).items

def changed : Workbench K D where
  graph := { (literals ys : Workbench K D).graph with
    values := [(2, Twice.doubled op (.vector xs))]
    nextLabel := 3
    assigned := 1 }
  items := (wrapped op xs : Workbench K D).items

def outdated : Workbench K D where
  graph := {
    arena :=
      { slots := #[⟨0, some { content := { value := .vector ys } }⟩,
          ⟨0, some
            { content := { value := Twice.doubled op (.vector xs),
                           formula := some (Doubling.formula op) }
              children := [Twice.source]
              version := 1 }⟩]
        inserted := 2 }
    nextLabel := 3
    assigned := 1 }
  items := (wrapped op xs : Workbench K D).items ++ [("y", .var .vector Twice.target)]

variable [Add K] [Mul K] [MulAdd K] [Capacity K] [NatCast K]

theorem evaluate_wrapped :
    (Doubling.formula op).expression.evaluate (wrapped op xs : Workbench K D).graph =
      some (Twice.doubled op (.vector xs), (read op xs : Workbench K D).graph) := by
  let g : Graph K D := (wrapped op xs).graph
  have hnone : g.remembered? 2 = none := rfl
  have hcell : g.arena.content? Twice.source = some { value := .vector xs } := rfl
  change (Expression.shared 2 (.binary (.cwise op) (.read 0 Twice.source)
    (.read 1 Twice.source))).evaluate g = _
  simp only [Expression.evaluate, run_bind, run_get, run_cell, Option.bind_some, Option.map_some,
    hnone, hcell, run_pure, Twice.eval_doubled]
  rfl

theorem evaluate_changed :
    (Doubling.formula op).expression.evaluate (changed op xs ys : Workbench K D).graph =
      some (Twice.doubled op (.vector xs), (changed op xs ys : Workbench K D).graph) := rfl

variable [One K] [NumberText K] [Differential K D] [HostDerivative K D]

theorem reachable : (changed op xs ys : Workbench K D).Reachable := by
  have hliteral : ({} : Workbench K D).step (.newVariable (.literal (.vector xs)) "x") =
      some (literals xs, .ok (.text "variable")) := by
    change some (({ graph := (literals xs : Workbench K D).graph } : Workbench K D).store "x" _,
      _) = _
    rw [store_new _ rfl]
    rfl
  let summed : Workbench K D :=
    { literals xs with
      graph := (wrapped op xs : Workbench K D).graph
      items := [("x", .var .vector Twice.source), ("e", .operation .vector (Doubling.formula op))] }
  have hoperation : (literals xs : Workbench K D).step
      (.binary (.operator op) (.ref "x") (.ref "x") "e") =
      some (summed, .ok (.text "operation")) := by
    change some (({ literals xs with graph := (wrapped op xs : Workbench K D).graph } :
      Workbench K D).store "e" (.operation .vector (Doubling.formula op)), _) = _
    rw [store_new _ rfl]
    rfl
  have hwrapper : summed.step (.wrapper "e" "w") =
      some (wrapped op xs, .ok (.text "wrapper")) := by
    change some (summed.store "w" (.wrapper .vector (Doubling.formula op)), _) = _
    rw [store_new _ rfl]
    rfl
  have hvalue : (wrapped op xs : Workbench K D).step (.value "w") =
      some (read op xs, .ok (.value (Twice.doubled op (.vector xs)))) := by
    change (wrapped op xs : Workbench K D).onGraph (Doubling.formula op).expression.evaluate
      (fun w v => w.answer (.ok (.value v))) = _
    rw [onGraph, evaluate_wrapped]
    rfl
  have hassign : (read op xs : Workbench K D).step (.assign "x" (.literal (.vector ys))) =
      some (changed op xs ys, .ok .nothing) := by
    change some ((changed op xs ys : Workbench K D).release [], _) = _
    rw [Workbench.release, Graph.release]
  exact ((((Reachable.start.step _ hliteral).step _ hoperation).step _ hwrapper).step _
    hvalue).step _ hassign

theorem step_variable :
    (changed op xs ys : Workbench K D).step (.newVariable (.ref "e") "y") =
      some (outdated op xs ys, .ok (.text "variable")) := by
  have hforget : (changed op xs ys : Workbench K D).graph.forget (Doubling.formula op) =
      { (changed op xs ys : Workbench K D).graph with values := [] } := by
    simp [Graph.forget, changed, literals, Doubling.formula, Formula.labels, Formula.share,
      Footprint.insert]
  change (changed op xs ys : Workbench K D).make "y"
    (do return .var .vector (← newComputed (Doubling.formula op))) = _
  rw [make, Workbench.onGraph, run_bind, newComputed_run (evaluate_changed op xs ys), hforget]
  change some (({ changed op xs ys with graph := (outdated op xs ys : Workbench K D).graph } :
    Workbench K D).store "y" (.var .vector Twice.target), _) = _
  rw [store_new _ rfl]
  rfl

end Wrapping

section Results

variable {K D : Type} [Zero K] [One K] [Add K] [Mul K] [MulAdd K] [Capacity K] [NatCast K]
  [Calculus K] [BEq K] [NumberText K] [Differential K D] [HostDerivative K D]
  {g : Graph K D} {H : Set (Formula K)} {ps : List (Program D)}

/-- A new variable, and one that is given a formula, get the value of the formula with
the parts that remember taken as they remember, so the plain value if what they remember
is right; and then nothing is remembered of it. A program that is evaluated makes its
plan consistent if nothing is remembered of the formulas that it works through. In any
case nothing is remembered of them afterwards: to evaluate it a second time makes the
plan consistent, and a third time changes nothing. -/
theorem Standing.remembered_once (h : Standing g H ps) :
    (∀ a, g.Offers H a →
      ((∀ label d v, Expression.Part (.shared label d) a.expression →
          g.remembered? label = some v → d.valueUnder g.value? = some v) →
        a.expression.valueFrom g.remembered? g.value? = a.expression.valueUnder g.value?) ∧
      Option.Rel (fun v r => g.value? r.1 = none ∧
          r.2.value? = Function.update g.value? r.1 (some v) ∧ r.2.Forgot a)
        (a.expression.valueFrom g.remembered? g.value?) (newComputed a g) ∧
      ∀ n, g.arena.contains n →
        Option.Rel (fun v r => r.2.value? = Function.update g.value? n (some v) ∧ r.2.Forgot a)
          (a.expression.valueFrom g.remembered? g.value?) (assignFormula n a g)) ∧
    ∀ (p q : Program D) (g' : Graph K D), p.Recent g → p.evaluate g = some ((q, .ok ()), g') →
      ∃ plan, q.plan? = some plan ∧
        ((∀ n ∈ plan.inner, ∀ a, g.formula? n = some a → g.Forgot a) →
          plan.Consistent g'.formula? g'.value? ∧ q.evaluate g' = some ((q, .ok ()), g')) ∧
        ∀ r q' g'', q.evaluate g' = some ((q', r), g'') →
          r = .ok () ∧ plan.Consistent g''.formula? g''.value? ∧
            q'.evaluate g'' = some ((q', .ok ()), g'') := by
  have hsound := h.orderly.sound
  constructor
  · intro a ha
    obtain ⟨β, hβ⟩ := h.orderly.offers ha
    have hfinds : Finds a g _ := finds_remembered hβ
    have hconfined := h.confined.all a
    refine ⟨Expression.valueFrom_eq, ?_, fun n hn => ?_⟩
    · refine rel_imp (hfinds.newComputed h.confined.packed) fun v r hrun hr => ?_
      exact ⟨hr.1, hr.2, (newComputed_confined hconfined hrun).forgot⟩
    · refine rel_imp (hfinds.assignFormula hn) fun v r hrun hr => ?_
      exact ⟨hr, (assignFormula_confined hconfined hrun).forgot⟩
  · intro p q g' hp hrun
    obtain ⟨plan, hplan, hlive, -, hcurrent⟩ := Program.evaluate_ok hrun
    have hcurrent := hcurrent hp
    refine ⟨plan, hplan, fun hforgot => ?_, fun r q' g'' hagain =>
      hcurrent.evaluate_again hsound h.confined hrun hagain⟩
    obtain ⟨β, hβ⟩ := hsound.named
    have hinner : ∀ n ∈ plan.inner, g.Visitable β n :=
      fun n hn => visitable_of hβ (hlive n (Plan.mem_inner.mp hn).1) (hforgot n hn)
    obtain ⟨-, -, -, -, hconsistent, hsettled⟩ := hcurrent.evaluate_consistent hsound hinner hrun
    exact ⟨hconsistent, hsettled⟩

end Results

theorem Standing.remembered_once_wrapping :
    let w : Workbench Float (Mat Float) := Wrapping.changed .add #[1, 2, 3] #[5]
    Standing w.graph w.held [] ∧ w.graph.Offers w.held (Doubling.formula .add) ∧
      ∃ r, newComputed (Doubling.formula .add) w.graph = some r ∧
        r.2.value? r.1 = some (Twice.doubled .add (.vector #[1, 2, 3])) ∧
        r.2.Forgot (Doubling.formula .add) := by
  intro w
  have h : Standing w.graph w.held [] := .workbench (Wrapping.reachable .add #[1, 2, 3] #[5])
  have ha : w.graph.Offers w.held (Doubling.formula .add) :=
    .inl ⟨("e", _), List.mem_cons_of_mem _ (List.mem_cons_self ..), rfl⟩
  obtain ⟨-, hnew, -⟩ := (Standing.remembered_once h).1 _ ha
  have hvalue : (Doubling.formula .add).expression.valueFrom w.graph.remembered? w.graph.value? =
      some (Twice.doubled .add (.vector #[1, 2, 3])) := rfl
  obtain ⟨r, hr, -, hvalues, hforgot⟩ := rel_left hnew hvalue
  exact ⟨h, ha, r, hr, by rw [hvalues, Function.update_self], hforgot⟩

/-- A wrapper is evaluated by itself, and the variable that it reads is given a shorter
vector. A new variable then gets a value that its formula no longer has. -/
theorem Workbench.new_variable_outdated :
    ∃ (w w' : Workbench Float (Mat Float)) (a : Formula Float) (n : NodeId) (v : Value Float),
      w.Reachable ∧ w.item "e" = .ok (.operation .vector a) ∧
      w.step (.newVariable (.ref "e") "y") = some (w', .ok (.text "variable")) ∧
      w'.item "y" = .ok (.var .vector n) ∧
      a.expression.valueUnder w.graph.value? = some v ∧ w'.graph.value? n ≠ some v := by
  let xs : Array Float := #[1, 2, 3]
  let ys : Array Float := #[5]
  refine ⟨Wrapping.changed .add xs ys, Wrapping.outdated .add xs ys, Doubling.formula .add,
    Twice.target, Twice.doubled .add (.vector ys), Wrapping.reachable .add xs ys, rfl,
    Wrapping.step_variable .add xs ys, rfl, Twice.eval_doubled .add (.vector ys), fun h => ?_⟩
  have hshape : Shape.vector 3 = Shape.vector 1 := congrArg Value.shape (Option.some.inj h)
  cases hshape

end GradientGraph
