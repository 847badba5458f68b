import GradientGraph.Proofs.Session.Edges
import GradientGraph.Proofs.Workbench.Deeds

/-!
# Edges on a workbench

A step of the workbench rebuilds the edges that its deed tells as well, and lets at most
one node come into being.
-/

set_option autoImplicit false

namespace GradientGraph

open GradientGraph.Graph

namespace Workbench

variable {K D α : Type} {w : Workbench K D}

section Formulas

variable {S : Set Nat} {T : Set NodeId}

theorem works_operand {x : Argument K} {c : Category} {m : GraphM K D (Formula K)}
    (h : w.operand x = .ok (c, m)) : Labours S T m := by
  cases x with
  | literal v =>
    cases h
    exact works_freshLabel.before fun _ => works_pure (Set.empty_subset S)
  | ref name =>
    obtain ⟨x, hx, h⟩ := exists_of_except_bind h
    cases h
    exact works_formula x

theorem works_share (a : Formula K) (f : Formula K → α) :
    Labours S T (do return f (.share (← freshLabel) a) : GraphM K D α) :=
  works_freshLabel.before fun _ => works_pure (Set.empty_subset S)

end Formulas

section Steps

variable [Zero K] [Add K] [Mul K] [MulAdd K] [Capacity K] [NatCast K] [Calculus K] {S : Set Nat}

theorem Makes.variable_or_formed {m : GraphM K D (Item K)} (h : w.Makes m) :
    (∃ (c : Category) (v : Value K), m = (do return .var c (← newVariable v))) ∨
    (∃ (c : Category) (x : Item K), m = (do return .var c (← newComputed (← x.formula)))) ∨
    ∀ S : Set Nat, Labours S ∅ m := by
  cases h with
  | fresh c v => exact .inl ⟨c, v, rfl⟩
  | @computed _ x hx => exact .inr (.inl ⟨x.category, x, rfl⟩)
  | binary hl hr k c =>
    exact .inr (.inr fun _ => (works_operand hl).before fun x => (works_operand hr).before fun y =>
      works_share (.binary k x y) _)
  | unary hl k c =>
    exact .inr (.inr fun _ => (works_operand hl).before fun a => works_share (.unary k a) _)
  | @wrapper _ x hx =>
    exact .inr (.inr fun _ => (works_formula x).before fun _ => works_pure (Set.empty_subset _))
  | @evaluator _ x hx =>
    exact .inr (.inr fun _ => (works_formula x).before fun a => works_share a _)
  | expression ha c => exact .inr (.inr fun _ => works_pure (Set.empty_subset _))

theorem Makes.renews {m : GraphM K D (Item K)} (h : w.Makes m) : Renews S ∅ m := by
  obtain ⟨c, v, rfl⟩ | ⟨c, x, rfl⟩ | hformed := h.variable_or_formed
  · exact (renews_newVariable v).map _
  · exact (works_formula (T := ∅) x).renews_bind fun a => (renews_newComputed a).map _
  · exact (hformed S).renews

theorem Assigns.bears {deed : Deed D} {m : GraphM K D (List NodeId)} (h : w.Assigns deed m)
    {N : Set NodeId} (hw : w.graph.Whole S N) {displaced : List NodeId} {g : Graph K D}
    (hrun : m w.graph = some (displaced, g)) : w.graph.Bears (deed.rebuilt w.graph) g := by
  cases h with
  | literal hn v => exact bears_assignLiteral hw.packed hrun
  | @formula _ _ n y hn hy =>
    have hrenews : Renews S {n} (do Graph.assignFormula n (← y.formula) : GraphM K D _) :=
      (works_formula (T := ∅) y).renews_bind fun a => renews_assignFormula n a
    exact hrenews w.graph displaced g hw.packed hw.dated hrun

variable [One K] [Differential K D]

theorem Inquires.bears {x : Step K D} {deed : Deed D} {m : GraphM K D α}
    (h : w.Inquires x deed m) {N : Set NodeId} (hw : w.graph.Whole S N) {y : α} {g : Graph K D}
    (hrun : m w.graph = some (y, g)) : w.graph.Bears (deed.rebuilt w.graph) g := by
  obtain ⟨Q, hworks⟩ := h.works (S := S)
  have hbears := hworks.renews w.graph y g hw.packed hw.dated hrun
  cases h <;> exact hbears

variable [NumberText K] [HostDerivative K D]

theorem step_follows (hw : w.scene.Whole w.nodes) {w' : Workbench K D} {x : Step K D}
    {r : Except Failure (Answer K)} (h : w.step x = some (w', r)) :
    w.graph.Follows ((w.deed x).rebuilt w.graph) w'.graph := by
  have hidle : w.graph.Bears ∅ w.graph := .refl hw.packed
  cases steps h with
  | asked hdeed =>
    rw [hdeed]
    exact hidle.follows
  | noted hdeed =>
    rw [hdeed]
    exact hidle.follows
  | inquired hm hrun => exact (hm.bears hw hrun).follows
  | @made hdeed _ hm y g hrun =>
    rw [hdeed]
    exact ⟨g, hm.renews w.graph y g hw.packed hw.dated hrun, Graph.sheds_release ..⟩
  | @assigned _ hm _ g hrun => exact ⟨g, hm.bears hw hrun, Graph.sheds_release ..⟩
  | @given _ n hn d hdeed u g hrun =>
    have hgive : Labours w.scene.stamps Set.univ (giveDerivative n d : GraphM K D Unit) :=
      works_giveDerivative (Set.mem_univ n) d
    rw [hdeed]
    exact (hgive.renews w.graph u g hw.packed hw.dated hrun).follows
  | dropped hdeed =>
    rw [hdeed]
    exact ⟨w.graph, hidle, Graph.sheds_release ..⟩
  | stored hdeed =>
    rw [hdeed]
    exact hidle.follows
  | compiled _ hdeed =>
    rw [hdeed]
    exact hidle.follows
  | @passed _ p _ hp y hdeed _ g hrun =>
    have hprogram : w.scene.program? (.name _) = some p := hp
    rw [hdeed]
    exact (y.run_bears hw (Scene.seedStamps_subset hprogram) hrun).follows

end Steps

end Workbench

end GradientGraph
