import GradientGraph.Number.Significant

/-!
# Multiplication and addition in one rounding

Finite doubles are exact numbers, so the product of two and its sum with a
third can be formed exactly and rounded once, to the nearest double, a half
going to the even neighbour.
-/

set_option autoImplicit false

namespace GradientGraph

namespace Binary64

/-- The bits of positive infinity. As bit patterns of positive numbers are
ordered by size, every magnitude too large for a finite double has a greater
pattern or this one. -/
def infinityBits : Nat := 2047 * hiddenBit

/-- The bits of the double nearest to `significand * 2 ^ exponent`. The unit
of the last place leaves 53 digits of the significand, but is not finer than
that of the smallest double. A significand rounded up to the next power of
two carries into the exponent by itself. -/
def nearestBits (significand : Nat) (exponent : Int) : Nat :=
  let unit := max (exponent + significand.log2 - 52) (-1074)
  let (num, den) := scaled significand 2 (exponent - unit)
  min (roundHalfEven num den + (unit + 1074).toNat * hiddenBit) infinityBits

def nearestFloat (negative : Bool) (significand : Nat) (exponent : Int) : Float :=
  let bits := UInt64.ofNat (nearestBits significand exponent)
  Float.ofBits (if negative then signBit + bits else bits)

end Binary64

def signedAdd (xNegative : Bool) (x : Nat) (yNegative : Bool) (y : Nat) : Bool × Nat :=
  if xNegative = yNegative then (xNegative, x + y)
  else if x < y then (yNegative, y - x)
  else (xNegative, x - y)

/-- Whether the lower half of the 53 digits of the significand is zero.
Rounding `x` to the upper half by way of a large multiple then changes
nothing. -/
def isShort (x : Float) : Bool :=
  let large := 134217729 * x
  large - (large - x) == x

def exactFrom : Float := 1e-290

/-- Whether rounding leaves the product of `x` and `y` as it is: the product of
two short significands has no more digits than a double holds, as long as it
is not so small that a double holds fewer. -/
def isExactProduct (x y : Float) : Bool :=
  x == 0 || y == 0 || isShort x && isShort y && exactFrom < (x * y).abs && (x * y).isFinite

/-- The double nearest to the exact `x * y + z`. Where the product is exact
already, or the exact result is zero, the two rounded steps give it with the
right sign. Operands that are not finite go through them as well, except that
a finite product changes no infinite or missing addend. -/
def fusedMulAdd (x y z : Float) : Float :=
  if isExactProduct x y then x * y + z
  else
    match Binary64.ofFloat x, Binary64.ofFloat y, Binary64.ofFloat z with
    | .finite xs xm xe, .finite ys ym ye, .finite zs zm ze =>
      let unit := min (xe + ye) ze
      let product := xm * ym * Nat.pow 2 (xe + ye - unit).toNat
      let addend := zm * Nat.pow 2 (ze - unit).toNat
      let (negative, sum) := signedAdd (xs != ys) product zs addend
      if sum = 0 then x * y + z else Binary64.nearestFloat negative sum unit
    | .finite _ _ _, .finite _ _ _, _ => z
    | _, _, _ => x * y + z

end GradientGraph
