import GradientGraph.Scalar.Rule
import Mathlib.Analysis.SpecialFunctions.Pow.Real
import Mathlib.Analysis.SpecialFunctions.Trigonometric.Basic

/-!
# Rules over a field

Over a field the usual rules are in force, with whatever functions stand for the
elementary ones. The real numbers have those of analysis.
-/

set_option autoImplicit false

namespace GradientGraph
noncomputable section

instance (priority := low) fieldCalculus {K : Type} [Field K] [LT K] [DecidableLT K]
    [Elementary K] : Calculus K where
  binary := Elementary.binary
  unary := Elementary.unary

instance realElementary : Elementary ℝ where
  exp := Real.exp
  log := Real.log
  sqrt := Real.sqrt
  sin := Real.sin
  cos := Real.cos
  pow := fun x y => x ^ y
  half := 1 / 2

theorem half_mul_two : (Elementary.half : ℝ) * 2 = 1 := div_mul_cancel₀ 1 two_ne_zero

end
end GradientGraph
