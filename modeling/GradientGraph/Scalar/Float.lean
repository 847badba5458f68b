import GradientGraph.Array.Capacity
import GradientGraph.Scalar.Rule
import GradientGraph.Scalar.Total
import GradientGraph.Number.Fused

/-!
# Double precision scalars

The running instance of the rules: IEEE doubles with the platform's
elementary functions.
-/

set_option autoImplicit false

namespace GradientGraph

instance floatNatCast : NatCast Float := ⟨Float.ofNat⟩

/-- A double is rounded once for a product and the sum it enters. Both zeros
are zero. -/
instance floatMulAdd : MulAdd Float where
  mulAdd := fusedMulAdd
  isZero x := x == 0
  isFinite := Float.isFinite

instance floatCapacity : Capacity Float where
  fits := isAddressable 8

instance floatElementary : Elementary Float where
  exp := Float.exp
  log := Float.log
  sqrt := Float.sqrt
  sin := Float.sin
  cos := Float.cos
  pow := Float.pow
  half := 0.5

instance floatCalculus : Calculus Float where
  binary := Elementary.binary
  unary := Elementary.unary

end GradientGraph
