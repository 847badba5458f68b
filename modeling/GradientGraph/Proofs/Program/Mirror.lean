import GradientGraph.Proofs.Program.Staleness
import GradientGraph.Proofs.Workbench.Edges

/-!
# Edges mirror formulas

Between two moves the edges of every variable are those of its formula, and they lead to
live variables. The version of a variable tells how often a formula was attached to it or
gave way to a literal since the variable came into being, and nothing but that changes
its edges.
-/

set_option autoImplicit false

namespace GradientGraph

open GradientGraph.Graph

namespace Deed

variable {D : Type}

def formulaTo : Deed D → Option NodeId
  | .assignFormula n => some n
  | _ => none

def literalTo : Deed D → Option NodeId
  | .assignLiteral n => some n
  | _ => none

theorem formulaTo_eq {deed : Deed D} {n : NodeId} :
    deed.formulaTo = some n ↔ deed = .assignFormula n := by
  cases deed <;> simp [formulaTo]

theorem literalTo_eq {deed : Deed D} {n : NodeId} :
    deed.literalTo = some n ↔ deed = .assignLiteral n := by
  cases deed <;> simp [literalTo]

end Deed

namespace Setting

section Starts

variable {K D : Type}

/-- Whether a run can start here: no step was taken yet. -/
inductive Starts : Setting K D → Prop where
  | session (m : Module) : Starts (.session { module := m })
  | workbench : Starts (.workbench {})

theorem Starts.node? {s : Setting K D} (h : s.Starts) (n : NodeId) :
    s.graph.arena.node? n = none := by
  cases h <;> rfl

end Starts

variable {K D : Type} [Zero K] [One K] [Add K] [Mul K] [MulAdd K] [Capacity K] [NatCast K]
  [Calculus K] [BEq K] [NumberText K] [Differential K D] [HostDerivative K D]

namespace Move

def attaches (m : Move K D) (n : NodeId) : Bool :=
  if m.before.graph.arena.contains n then m.deed.formulaTo = some n
  else (m.after.graph.formula? n).isSome

def replaces (m : Move K D) (n : NodeId) : Bool :=
  m.deed.literalTo = some n && (m.before.graph.formula? n).isSome

end Move

def life (n : NodeId) : List (Move K D) → List (Move K D)
  | [] => []
  | m :: ms => if m.before.graph.arena.contains n then m :: life n ms else [m]

/-- How often a formula was attached to the variable or replaced by a literal. -/
def changes (n : NodeId) (ms : List (Move K D)) : Nat :=
  (life n ms).countP (·.attaches n) + (life n ms).countP (·.replaces n)

variable {s s' : Setting K D} {m : Move K D} {ms : List (Move K D)} {n : NodeId}

theorem Starts.reachable (h : s.Starts) : s.Reachable := by
  cases h with
  | session m => exact .session (.start m)
  | workbench => exact .workbench .start

theorem reachable_iff_run : s'.Reachable ↔ ∃ s ms, Starts s ∧ Run s ms s' := by
  constructor
  · intro h
    cases h with
    | session h =>
      induction h with
      | start m => exact ⟨_, [], .session m, .nil _⟩
      | @step t t' r x _ hstep ih =>
        obtain ⟨s, ms, hs, hrun⟩ := ih
        exact ⟨s, .session hstep :: ms, hs, .cons (m := .session hstep) hrun⟩
    | workbench h =>
      induction h with
      | start => exact ⟨_, [], .workbench, .nil _⟩
      | @step w w' r x _ hstep ih =>
        obtain ⟨s, ms, hs, hrun⟩ := ih
        exact ⟨s, .workbench hstep :: ms, hs, .cons (m := .workbench hstep) hrun⟩
  · rintro ⟨s, ms, hs, hrun⟩
    exact hrun.reachable hs.reachable

theorem Move.follows (h : m.before.Reachable) :
    m.before.graph.Follows (m.deed.rebuilt m.before.graph) m.after.graph := by
  have hwhole := h.whole
  cases m.taken_by with
  | session hstep => exact Session.step_follows hwhole hstep
  | workbench hstep => exact Workbench.step_follows hwhole hstep

theorem changes_born (h : m.before.graph.arena.node? n = none) :
    changes n (m :: ms) = if (m.after.graph.formula? n).isSome then 1 else 0 := by
  have hnew : ¬m.before.graph.arena.contains n := by simp [Arena.contains, h]
  have hformula : m.before.graph.formula? n = none := by simp [formula?, Arena.content?, h]
  rw [changes, life, if_neg hnew, List.countP_singleton, List.countP_singleton, Move.attaches,
    if_neg hnew, Move.replaces, hformula]
  simp

theorem changes_kept (h : m.before.graph.arena.contains n)
    (hn : n ∉ m.deed.rebuilt m.before.graph) : changes n (m :: ms) = changes n ms := by
  rw [Deed.mem_rebuilt, not_or] at hn
  have hattaches : m.attaches n = false := by
    simp [Move.attaches, h, Deed.formulaTo_eq, hn.1]
  have hreplaces : m.replaces n = false := by
    simpa [Move.replaces, Deed.literalTo_eq] using hn.2
  rw [changes, life, if_pos h, List.countP_cons_of_neg (by simp [hattaches]),
    List.countP_cons_of_neg (by simp [hreplaces]), changes]

theorem changes_renewed (h : m.before.graph.arena.contains n)
    (hn : n ∈ m.deed.rebuilt m.before.graph) : changes n (m :: ms) = changes n ms + 1 := by
  -- a deed gives a formula or a literal, not both
  have hone : (m.attaches n = true ∧ m.replaces n = false) ∨
      m.attaches n = false ∧ m.replaces n = true := by
    rcases Deed.mem_rebuilt.mp hn with hdeed | ⟨hdeed, hcomputed⟩
    · exact .inl ⟨by simp [Move.attaches, h, hdeed, Deed.formulaTo],
        by simp [Move.replaces, hdeed, Deed.literalTo]⟩
    · exact .inr ⟨by simp [Move.attaches, h, hdeed, Deed.formulaTo],
        by simp [Move.replaces, hdeed, Deed.literalTo, hcomputed]⟩
  rw [changes, life, if_pos h, List.countP_cons, List.countP_cons, changes]
  rcases hone with ⟨ha, hr⟩ | ⟨ha, hr⟩
  · simp only [ha, hr, if_true, Bool.false_eq_true, if_false]
    omega
  · simp only [ha, hr, if_true, Bool.false_eq_true, if_false]
    omega

theorem Run.linked (h : Run s ms s') (hs : s.Starts) {x : Node (Cell K D)}
    (hx : s'.graph.arena.node? n = some x) :
    x.Linked ∧ x.version = UInt64.ofNat (changes n ms) := by
  induction h generalizing x with
  | nil =>
    rw [hs.node? n] at hx
    cases hx
  | @cons ms m h ih =>
    have hstems := (Move.follows (h.reachable hs.reachable)).node hx
    cases hold : m.before.graph.arena.node? n with
    | none =>
      rw [hold] at hstems
      cases hstems with
      | born hversion hlinked =>
        refine ⟨hlinked, ?_⟩
        rw [changes_born hold, formula?_of_node hx, hversion]
        split <;> rfl
    | some y =>
      obtain ⟨hlinked, hversion⟩ := ih hold
      have hlive : m.before.graph.arena.contains n := Arena.contains_iff.mpr ⟨y, hold⟩
      rw [hold] at hstems
      cases hstems with
      | kept hn hv hc hf =>
        rw [changes_kept hlive hn, hv, hversion]
        exact ⟨by rw [Node.Linked, hc, hf, hlinked], rfl⟩
      | renewed hn hv hlinked' =>
        rw [changes_renewed hlive hn, hv, hversion, UInt64.ofNat_add]
        exact ⟨hlinked', rfl⟩

/-- Edges mirror formulas. After a run the edges of every live variable lead to the
distinct variables that its formula reads, in the order in which they are read first, and
all of these are live; a literal has no edges. The version counts how often a formula was
attached to the variable or replaced by a literal. In the next move the edges, and whether
there is a formula, only change as the version is counted up, and they and the version stay
as they are unless the variable is the one assigned. -/
theorem edges_mirror (hs : s.Starts) (h : Run s ms s') :
    (∀ n x, s'.graph.arena.node? n = some x →
      x.children = (x.content.formula.map (·.expression.reads.eraseDups)).getD [] ∧
      (∀ c ∈ x.children, s'.graph.arena.contains c) ∧
      x.version.toNat = ((life n ms).countP (·.attaches n) +
        (life n ms).countP (·.replaces n)) % 2 ^ 64) ∧
    ∀ m : Move K D, m.before = s' → ∀ n x y, s'.graph.arena.node? n = some x →
      m.after.graph.arena.node? n = some y →
      (y.children ≠ x.children ∨ y.content.formula.isSome ≠ x.content.formula.isSome →
        y.version = x.version + 1) ∧
      (m.deed ≠ .assignFormula n → m.deed ≠ .assignLiteral n →
        y.children = x.children ∧ y.version = x.version ∧
          y.content.formula = x.content.formula) := by
  have hreachable := h.reachable hs.reachable
  refine ⟨fun n x hx => ?_, ?_⟩
  · obtain ⟨hlinked, hversion⟩ := h.linked hs hx
    have hchildren : x.children =
        (x.content.formula.map (·.expression.reads.eraseDups)).getD [] := by
      rw [hlinked]
      exact congrArg (fun f => (x.content.formula.map f).getD []) (funext Formula.children_eq)
    refine ⟨hchildren, fun c hc => ?_, ?_⟩
    · rw [hchildren] at hc
      cases ha : x.content.formula with
      | none =>
        rw [ha] at hc
        cases hc
      | some a =>
        rw [ha] at hc
        exact hreachable.whole.closed n a ((formula?_of_node hx).trans ha) c
          (List.mem_eraseDups.mp hc)
    · rw [hversion, changes, UInt64.toNat_ofNat']
  · rintro m rfl n x y hx hy
    have hstems := (Move.follows hreachable).node hy
    rw [hx] at hstems
    cases hstems with
    | kept hn hv hc hf =>
      refine ⟨fun hchange => ?_, fun _ _ => ⟨hc, hv, hf⟩⟩
      rcases hchange with hchange | hchange
      · exact absurd hc hchange
      · exact absurd (congrArg Option.isSome hf) hchange
    | renewed hn hv _ =>
      refine ⟨fun _ => hv, fun hformula hliteral => ?_⟩
      rcases Deed.mem_rebuilt.mp hn with hassigned | ⟨hassigned, -⟩
      · exact absurd hassigned hformula
      · exact absurd hassigned hliteral

/-- A variable computed from another one is assigned a literal, and its edge goes. -/
theorem edges_mirror_orphaned :
    let s : Setting Float Float := .workbench {}
    let t : Setting Float Float := .workbench (Doubling.Bounded.owned .add 3)
    ∃ (ms : List (Move Float Float)) (m : Move Float Float) (x y : Node (Cell Float Float)),
      s.Starts ∧ Run s ms t ∧ m.before = t ∧ t.graph.arena.node? Twice.target = some x ∧
      m.after.graph.arena.node? Twice.target = some y ∧ x.children = [Twice.source] ∧
      t.graph.arena.contains Twice.source ∧ (changes Twice.target ms) % 2 ^ 64 = 1 ∧
      y.children = [] ∧ y.version = x.version + 1 := by
  intro s t
  let literal : Move Float Float := .workbench (Doubling.step_literal 3)
  let operation : Move Float Float := .workbench (Doubling.step_operation .add 3)
  let computed : Move Float Float := .workbench (Doubling.step_variable .add 3)
  let unname : Move Float Float := .workbench (Doubling.Bounded.step_unnamed .add 3)
  have hprogram : (Doubling.Bounded.unnamed .add 3 : Workbench Float Float).step
      (.program ["x", "y"] ["y"] "f") =
        some (Doubling.Bounded.programs .add 3 .absent, .ok .nothing) := rfl
  let program : Move Float Float := .workbench hprogram
  let compile : Move Float Float := .workbench (Doubling.Bounded.step_compile .add 3)
  let drop : Move Float Float := .workbench (Doubling.Bounded.step_owned .add 3)
  let assign : Move Float Float := .workbench (Doubling.Bounded.step_orphaned .add 3 5)
  have hs : s.Starts := .workbench
  have hrun : Run s [drop, compile, program, unname, computed, operation, literal] t :=
    .cons (m := drop) <| .cons (m := compile) <| .cons (m := program) <| .cons (m := unname) <|
      .cons (m := computed) <| .cons (m := operation) <| .cons (m := literal) (.nil _)
  obtain ⟨hmirror, hmove⟩ := edges_mirror hs hrun
  obtain ⟨hchildren, hlive, hversion⟩ := hmirror Twice.target _ rfl
  obtain ⟨hchange, -⟩ := hmove assign rfl Twice.target _ _ rfl rfl
  refine ⟨_, assign, _, _, hs, hrun, rfl, rfl, rfl, hchildren, ?_, hversion.symm, rfl, ?_⟩
  · exact hlive Twice.source (List.mem_singleton_self _)
  · exact hchange (.inl (by simp))

end Setting

end GradientGraph
