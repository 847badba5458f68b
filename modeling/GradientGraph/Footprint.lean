import GradientGraph.Expression

/-!
# Footprints

What can be told of an expression without walking through it: the variables
it reads and the labels of its shared parts. An expression with shared parts
may stand for far more occurrences than it has parts. The footprint of a part
is computed from those of its operands, so it costs as much as there are
parts, and it names each variable and each label once.
-/

set_option autoImplicit false

namespace GradientGraph

/-- A finite set of labels, one bit for each. -/
structure LabelSet where
  bits : Nat
deriving DecidableEq, Repr

namespace LabelSet

def empty : LabelSet := ⟨0⟩

def insert (label : Label) (s : LabelSet) : LabelSet := ⟨s.bits ||| 1 <<< label⟩

def union (s t : LabelSet) : LabelSet := ⟨s.bits ||| t.bits⟩

def contains (s : LabelSet) (label : Label) : Bool := s.bits.testBit label

@[simp] theorem contains_empty (a : Label) : empty.contains a = false := by
  simp [empty, contains]

@[simp] theorem contains_insert (s : LabelSet) (a b : Label) :
    (s.insert a).contains b = (s.contains b || decide (a = b)) := by
  simp [insert, contains, Nat.testBit_or, Nat.one_shiftLeft, Nat.testBit_two_pow]

@[simp] theorem contains_union (s t : LabelSet) (a : Label) :
    (s.union t).contains a = (s.contains a || t.contains a) := by
  simp [union, contains, Nat.testBit_or]

end LabelSet

structure Footprint where
  /-- The variables read, in the order in which each is read first. -/
  firsts : List NodeId
  /-- The variables read, in the order in which each is read last. -/
  lasts : List NodeId
  /-- The labels of the shared parts. -/
  labels : LabelSet

namespace Footprint

def empty : Footprint := ⟨[], [], .empty⟩

def ofNode (n : NodeId) : Footprint := ⟨[n], [n], .empty⟩

def join (a b : Footprint) : Footprint where
  firsts := a.firsts ++ b.firsts.filter (· ∉ a.firsts)
  lasts := a.lasts.filter (· ∉ b.lasts) ++ b.lasts
  labels := a.labels.union b.labels

def insert (label : Label) (a : Footprint) : Footprint :=
  { a with labels := a.labels.insert label }

theorem mem_firsts_join {a b : Footprint} {n : NodeId} :
    n ∈ (a.join b).firsts ↔ n ∈ a.firsts ∨ n ∈ b.firsts := by
  by_cases h : n ∈ a.firsts <;> simp [join, h]

theorem mem_lasts_join {a b : Footprint} {n : NodeId} :
    n ∈ (a.join b).lasts ↔ n ∈ a.lasts ∨ n ∈ b.lasts := by
  by_cases h : n ∈ b.lasts <;> simp [join, h]

end Footprint

namespace Expression

variable {K : Type}

def footprint : Expression K → Footprint
  | .literal _ => .empty
  | .read _ n => .ofNode n
  | .unary _ a => a.footprint
  | .binary _ l r => l.footprint.join r.footprint
  | .shared label e => e.footprint.insert label

theorem mem_firsts_footprint {e : Expression K} {n : NodeId} :
    n ∈ e.footprint.firsts ↔ n ∈ e.reads := by
  induction e with
  | literal => simp [footprint, Footprint.empty, reads]
  | read => simp [footprint, Footprint.ofNode, reads]
  | unary _ _ ih => simpa [footprint, reads] using ih
  | binary _ _ _ ihl ihr => simp [footprint, Footprint.mem_firsts_join, reads, ihl, ihr]
  | shared _ _ ih => simpa [footprint, Footprint.insert, reads] using ih

theorem mem_lasts_footprint {e : Expression K} {n : NodeId} :
    n ∈ e.footprint.lasts ↔ n ∈ e.reads := by
  induction e with
  | literal => simp [footprint, Footprint.empty, reads]
  | read => simp [footprint, Footprint.ofNode, reads]
  | unary _ _ ih => simpa [footprint, reads] using ih
  | binary _ _ _ ihl ihr => simp [footprint, Footprint.mem_lasts_join, reads, ihl, ihr]
  | shared _ _ ih => simpa [footprint, Footprint.insert, reads] using ih

end Expression

end GradientGraph
