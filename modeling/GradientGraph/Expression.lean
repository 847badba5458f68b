import GradientGraph.Kernel.Unary
import GradientGraph.Kernel.Binary
import GradientGraph.Node.Id

/-!
# Expressions

What a variable is computed from: kernels over literals and over the values
of other variables. `shared` marks a part that remembers what it evaluated
to, under a label. Two parts with one label are one part seen twice, and
share what is remembered. Labels also tell handles on equal expressions
apart.
-/

set_option autoImplicit false

namespace GradientGraph

abbrev Label := Nat

inductive Expression (K : Type) where
  | literal (v : Value K)
  | read (label : Label) (n : NodeId)
  | unary (k : UnaryKernel) (arg : Expression K)
  | binary (k : BinaryKernel) (left right : Expression K)
  | shared (label : Label) (body : Expression K)

namespace Expression

variable {K : Type}

def reads : Expression K → List NodeId
  | .literal _ => []
  | .read _ n => [n]
  | .unary _ a => a.reads
  | .binary _ l r => l.reads ++ r.reads
  | .shared _ e => e.reads

def isConstant : Expression K → Bool
  | .literal _ => true
  | .read _ _ => false
  | .unary _ a => a.isConstant
  | .binary _ l r => l.isConstant && r.isConstant
  | .shared _ e => e.isConstant

def label? : Expression K → Option Label
  | .read label _ | .shared label _ => some label
  | _ => none

/-- The value under an assignment of values to variables, computed without
remembering anything. -/
def valueUnder [Zero K] [One K] [Add K] [Mul K] [MulAdd K] [Capacity K] [NatCast K] [Calculus K]
    (ρ : NodeId → Option (Value K)) : Expression K → Option (Value K)
  | .literal v => some v
  | .read _ n => ρ n
  | .unary k a => (a.valueUnder ρ).map k.eval
  | .binary k l r => do k.eval (← l.valueUnder ρ) (← r.valueUnder ρ)
  | .shared _ e => e.valueUnder ρ

theorem isConstant_iff_reads {e : Expression K} : e.isConstant ↔ e.reads = [] := by
  induction e with
  | literal => simp [isConstant, reads]
  | read => simp [isConstant, reads]
  | unary _ _ ih => simpa [isConstant, reads] using ih
  | binary _ _ _ ihl ihr => simp [isConstant, reads, ihl, ihr]
  | shared _ _ ih => simpa [isConstant, reads] using ih

end Expression

end GradientGraph
