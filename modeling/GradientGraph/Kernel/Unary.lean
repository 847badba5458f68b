import GradientGraph.Scalar.Rule
import GradientGraph.Scalar.Total
import GradientGraph.Jacobian

/-!
# Kernels of one operand

A scalar operator applied to every element, and the reductions of an array
to a scalar.
-/

set_option autoImplicit false

namespace GradientGraph

inductive UnaryKernel where
  | map (op : UnOp)
  | sum
  | mean
  | norm
  | squaredNorm
deriving DecidableEq, Repr

namespace UnaryKernel

variable {K : Type} [Zero K] [One K] [Add K] [Mul K] [NatCast K] [Calculus K]

def sumEntries (x : Value K) : K := laneTotal x.size x.entry

def sumSquares (x : Value K) : K := laneTotal x.size fun i => x.entry i * x.entry i

def divide (a b : K) : K := (Calculus.binary .div).eval a b

def eval : UnaryKernel → Value K → Value K
  | .map op, x => x.map (Calculus.unary op).eval
  | .sum, x => .scalar (sumEntries x)
  | .mean, x => .scalar (divide (sumEntries x) (x.size : K))
  | .norm, x => .scalar ((Calculus.unary .sqrt).eval (sumSquares x))
  | .squaredNorm, x => .scalar (sumSquares x)

/-- The Jacobian at `x`, where `out` is the kernel's value there. -/
def partialAt : UnaryKernel → (x out : Value K) → Jacobian K
  | .map op, x, out =>
    .ofElements (.ofFn x.shape fun i => (Calculus.unary op).deriv (x.entry i) (out.entry i))
  | .sum, x, _ => .row (Array.ofFn fun _ : Fin x.size => 1)
  | .mean, x, _ => .row (Array.ofFn fun _ : Fin x.size => divide 1 (x.size : K))
  | .norm, x, out => .row (Array.ofFn fun i : Fin x.size => divide (x.entry i) (out.entry 0))
  | .squaredNorm, x, _ => .row (Array.ofFn fun i : Fin x.size => x.entry i * ((2 : Nat) : K))

def jacobian (k : UnaryKernel) (x : Value K) : Jacobian K := k.partialAt x (k.eval x)

def category : UnaryKernel → Category → Category
  | .map _, c => c
  | _, _ => .scalar

end UnaryKernel

end GradientGraph
