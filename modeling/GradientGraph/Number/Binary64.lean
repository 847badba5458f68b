/-!
# Doubles as exact numbers

A finite double is a sign and a natural number times a power of two. All
texts of numbers are computed from this form in exact arithmetic.
-/

set_option autoImplicit false

namespace GradientGraph

inductive Binary64 where
  | nan
  | infinite (negative : Bool)
  /-- The magnitude is `significand * 2 ^ exponent`. -/
  | finite (negative : Bool) (significand : Nat) (exponent : Int)
deriving DecidableEq, Repr

namespace Binary64

def hiddenBit : Nat := Nat.pow 2 52

def signBit : UInt64 := 0x8000000000000000

/-- Reads a sign, eleven bits of exponent, and the fraction below the leading
bit. The smallest exponent has no leading bit. -/
def ofBits (bits : UInt64) : Binary64 :=
  let negative : Bool := signBit ≤ bits
  let magnitude : Nat := (bits % signBit).toNat
  let biased : Nat := magnitude / hiddenBit
  let fraction : Nat := magnitude % hiddenBit
  if biased = 2047 then if fraction = 0 then .infinite negative else .nan
  else if biased = 0 then .finite negative fraction (-1074)
  else .finite negative (hiddenBit + fraction) ((biased : Int) - 1075)

def ofFloat (x : Float) : Binary64 := ofBits x.toBits

end Binary64

def scaled (m b : Nat) (e : Int) : Nat × Nat :=
  if e < 0 then (m, Nat.pow b (-e).toNat) else (m * Nat.pow b e.toNat, 1)

def digitCount (n : Nat) : Nat := if n = 0 then 0 else (Nat.toDigits 10 n).length

/-- The exponent `e` with `10 ^ e ≤ num / den < 10 ^ (e + 1)`. The digit
counts leave two candidates. -/
def decimalExponent (num den : Nat) : Int :=
  let e := (digitCount num : Int) - digitCount den
  let (n, d) := scaled den 10 e
  if n ≤ num * d then e else e - 1

def trimmedDigits (n : Nat) : List Char :=
  ((Nat.toDigits 10 n).reverse.dropWhile (· = '0')).reverse

end GradientGraph
