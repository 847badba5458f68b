import GradientGraph.Footprint

/-!
# Formulas

An expression that carries its footprint. Everything that holds on to an
expression holds a formula: variables for what computes them, handles for
what they stand for.
-/

set_option autoImplicit false

namespace GradientGraph

structure Formula (K : Type) where
  expression : Expression K
  footprint : Footprint
  footprint_eq : footprint = expression.footprint

namespace Formula

variable {K : Type}

def literal (v : Value K) : Formula K := ⟨.literal v, .empty, rfl⟩

def read (label : Label) (n : NodeId) : Formula K := ⟨.read label n, .ofNode n, rfl⟩

def unary (k : UnaryKernel) (a : Formula K) : Formula K :=
  ⟨.unary k a.expression, a.footprint, a.footprint_eq⟩

def binary (k : BinaryKernel) (l r : Formula K) : Formula K :=
  ⟨.binary k l.expression r.expression, l.footprint.join r.footprint, by
    rw [l.footprint_eq, r.footprint_eq]; rfl⟩

def share (label : Label) (a : Formula K) : Formula K :=
  ⟨.shared label a.expression, a.footprint.insert label, by rw [a.footprint_eq]; rfl⟩

def children (a : Formula K) : List NodeId := a.footprint.firsts

/-- The variables that the formula keeps alive, each once. One that is read
several times is given up with its last reading. -/
def nodes (a : Formula K) : List NodeId := a.footprint.lasts

def labels (a : Formula K) : LabelSet := a.footprint.labels

def label? (a : Formula K) : Option Label := a.expression.label?

def isConstant (a : Formula K) : Bool := a.children.isEmpty

theorem mem_children {a : Formula K} {n : NodeId} :
    n ∈ a.children ↔ n ∈ a.expression.reads := by
  rw [children, a.footprint_eq, Expression.mem_firsts_footprint]

theorem mem_nodes {a : Formula K} {n : NodeId} : n ∈ a.nodes ↔ n ∈ a.expression.reads := by
  rw [nodes, a.footprint_eq, Expression.mem_lasts_footprint]

theorem isConstant_iff {a : Formula K} : a.isConstant ↔ a.expression.isConstant := by
  rw [Expression.isConstant_iff_reads, isConstant, List.isEmpty_iff,
    List.eq_nil_iff_forall_not_mem, List.eq_nil_iff_forall_not_mem]
  simp only [mem_children]

end Formula

end GradientGraph
