import GradientGraph.Scalar.Rule
import GradientGraph.Scalar.Total
import GradientGraph.Jacobian

/-!
# Kernels of two operands

Scalar operators between arrays of one shape or between an array and a
repeated scalar, and the products. `eval` has a result exactly on operands
that `compatible` accepts, as far as an array can be as large as the result.
A partial derivative reads less than the value does and has its own domain:
it is undefined only where it would read an element that is not there.
-/

set_option autoImplicit false

namespace GradientGraph

inductive BinaryKernel where
  | cwise (op : BinOp)
  /-- An array on the left, a scalar on the right. -/
  | broadcast (op : BinOp)
  /-- A scalar on the left, an array on the right. -/
  | broadcastLeft (op : BinOp)
  | dot
  | outer
  /-- A matrix times a vector or a matrix. -/
  | matmul
deriving DecidableEq, Repr

namespace BinaryKernel

def compatible : BinaryKernel → Shape → Shape → Bool
  | .cwise _, l, r => l = r
  | .broadcast _, _, r => r = .scalar
  | .broadcastLeft _, l, _ => l = .scalar
  | .dot, .vector m, .vector n => m = n
  | .outer, .vector _, .vector _ => true
  | .matmul, .matrix _ s, .vector n => s = n
  | .matmul, .matrix _ s, .matrix t _ => s = t
  | _, _, _ => false

variable {K : Type} [Zero K] [Add K] [Mul K] [MulAdd K] [Capacity K] [Calculus K]

def eval : BinaryKernel → Value K → Value K → Option (Value K)
  | .cwise op, l, r => l.zipWith (Calculus.binary op).eval r
  | .broadcast op, l, r =>
    if r.shape = .scalar then
      some (l.map fun a => (Calculus.binary op).eval a (r.entry 0))
    else none
  | .broadcastLeft op, l, r =>
    if l.shape = .scalar then
      some (r.map fun b => (Calculus.binary op).eval (l.entry 0) b)
    else none
  | .dot, l, r =>
    match l.shape, r.shape with
    | .vector m, .vector n =>
      if m = n then some (.scalar (laneTotal m fun i => l.entry i * r.entry i)) else none
    | _, _ => none
  | .outer, l, r =>
    match l.shape, r.shape with
    | .vector m, .vector n =>
      if Capacity.fits K [m, n] then some (.matrix m n fun a b => l.entry a * r.entry b)
      else none
    | _, _ => none
  | .matmul, l, r =>
    match l.shape, r.shape with
    | .matrix m s, .vector n =>
      if s = n ∧ Capacity.fits K [m] then
        some (.ofFn (.vector m) fun a => laneTotal s fun b => l.cell m a b * r.entry b)
      else none
    | .matrix m s, .matrix t n =>
      if s = t ∧ Capacity.fits K [m, n] then
        some (.matrix m n fun a c =>
          productTotal (fun b => l.cell m a b) (fun b => r.cell t b c) (List.range s))
      else none
    | _, _ => none

def partialLeft : BinaryKernel → Value K → Value K → Option (Jacobian K)
  | .cwise op, l, r => (l.zipWith (Calculus.binary op).dLeft r).map .ofElements
  | .broadcast op, l, r =>
    if r.shape = .scalar then
      some (.ofElements (l.map fun a => (Calculus.binary op).dLeft a (r.entry 0)))
    else none
  | .broadcastLeft op, l, r =>
    if l.shape = .scalar then
      some (.column (r.map fun b => (Calculus.binary op).dLeft (l.entry 0) b).entries)
    else none
  | .dot, l, r =>
    match l.shape, r.shape with
    | .vector _, .vector _ => some (.row r.entries)
    | _, _ => none
  | .outer, l, r =>
    match l.shape, r.shape with
    | .vector m, .vector n =>
      some (.dense (.ofFn (m * n) m fun i a => if i % m = a then r.entry (i / m) else 0))
    | _, _ => none
  | .matmul, l, r =>
    match l.shape, r.shape with
    | .matrix m s, .vector n =>
      if m = 0 ∨ n ≤ s then
        some (.dense (.ofFn m (m * s) fun a j =>
          if j % m = a then r.entry (j / m) else 0))
      else none
    | .matrix m s, .matrix t n =>
      if m = 0 ∨ n = 0 ∨ s ≤ t then
        some (.dense (.ofFn (m * n) (m * s) fun i j =>
          if i % m = j % m then r.cell t (j / m) (i / m) else 0))
      else none
    | _, _ => none

def partialRight : BinaryKernel → Value K → Value K → Option (Jacobian K)
  | .cwise op, l, r => (l.zipWith (Calculus.binary op).dRight r).map .ofElements
  | .broadcast op, l, r =>
    if r.shape = .scalar then
      some (.column (l.map fun a => (Calculus.binary op).dRight a (r.entry 0)).entries)
    else none
  | .broadcastLeft op, l, r =>
    if l.shape = .scalar then
      some (.ofElements (r.map fun b => (Calculus.binary op).dRight (l.entry 0) b))
    else none
  | .dot, l, r =>
    match l.shape, r.shape with
    | .vector _, .vector _ => some (.row l.entries)
    | _, _ => none
  | .outer, l, r =>
    match l.shape, r.shape with
    | .vector m, .vector n =>
      some (.dense (.ofFn (m * n) n fun i b => if i / m = b then l.entry (i % m) else 0))
    | _, _ => none
  | .matmul, l, r =>
    match l.shape, r.shape with
    | .matrix m s, .vector _ => some (.dense (.ofFn m s fun a b => l.cell m a b))
    | .matrix m s, .matrix _ n =>
      some (.dense (.ofFn (m * n) (s * n) fun i j =>
        if i / m = j / s then l.cell m (i % m) (j % s) else 0))
    | _, _ => none

def category : BinaryKernel → Category → Category → Option Category
  | .cwise _, l, r => if l = r then some l else none
  | .broadcast _, l, .scalar => if l = .scalar then none else some l
  | .broadcastLeft _, .scalar, r => if r = .scalar then none else some r
  | .dot, .vector, .vector => some .scalar
  | .outer, .vector, .vector => some .matrix
  | .matmul, .matrix, .vector => some .vector
  | .matmul, .matrix, .matrix => some .matrix
  | _, _, _ => none

end BinaryKernel

end GradientGraph
