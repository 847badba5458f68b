import GradientGraph.Jacobian

/-!
# Derivative containers

A derivative is kept at a variable either as a scalar, in programs of scalars
alone, or as a matrix: a tangent has a row for each element of the value, a
gradient a column. Both flavours offer the same operations. An operation on
shapes that do not fit, or whose result would be larger than an array can be,
has no result.
-/

set_option autoImplicit false

namespace GradientGraph

class Differential (K : outParam Type) (D : Type) where
  /-- What is reported for a variable that has no derivative. -/
  empty : D
  zeros : (rows cols : Nat) → Option D
  identity : (size : Nat) → Option D
  dims : D → Nat × Nat
  accumulate : D → D → Option D
  /-- Jacobian times tangent. -/
  pushThrough : Jacobian K → D → Option D
  /-- Gradient times Jacobian. -/
  pullThrough : D → Jacobian K → Option D

variable {K : Type} [Zero K] [One K] [Add K] [Mul K]

instance scalarDifferential : Differential K K where
  empty := 0
  zeros _ _ := some 0
  identity _ := some 1
  dims _ := (1, 1)
  accumulate a b := some (a + b)
  pushThrough j t := j.head?.map (· * t)
  pullThrough g j := j.head?.map (g * ·)

namespace Mat

variable [MulAdd K] [Capacity K]

def pushThrough : Jacobian K → Mat K → Option (Mat K)
  | .scale c, t => some (t.map (· * c))
  | .diagonal p, t => t.hadamard (ofColumn p)
  | .column p, t => (ofColumn p).mul t
  | .row p, t => (ofRow p).mul t
  | .dense j, t => j.mul t

def pullThrough : Mat K → Jacobian K → Option (Mat K)
  | g, .scale c => some (g.map (· * c))
  | g, .diagonal p => g.hadamard (ofRow p)
  | g, .column p => g.mulColumn p
  | g, .row p => g.mul (ofRow p)
  | g, .dense j => g.mul j

end Mat

instance matDifferential [MulAdd K] [Capacity K] : Differential K (Mat K) where
  empty := Mat.ofFn 0 0 fun _ _ => 0
  zeros := Mat.zeros
  identity := Mat.identity
  dims := Mat.dims
  accumulate := Mat.accumulate
  pushThrough := Mat.pushThrough
  pullThrough := Mat.pullThrough

end GradientGraph
