import GradientGraph.Number.Significant

/-!
# The shortest decimal that reads back

Every real number within half a unit in the last place of a double reads
back as that double, at the very distance only if its significand is even.
Among the decimals in that interval the ones with the fewest digits are
sought, and of those the nearest, of two at equal distance the greater in
magnitude.
-/

set_option autoImplicit false

namespace GradientGraph

/-- The interval of numbers that read as `significand * 2 ^ exponent`, in
units of `2 ^ (exponent - 2)`. Below a power of two doubles lie twice as
close. -/
structure Neighbourhood where
  low : Nat
  mid : Nat
  high : Nat
  exponent : Int
  closed : Bool

namespace Neighbourhood

def ofFinite (significand : Nat) (exponent : Int) : Neighbourhood where
  low := 4 * significand - if significand = Binary64.hiddenBit ∧ exponent ≠ -1074 then 1 else 2
  mid := 4 * significand
  high := 4 * significand + 2
  exponent := exponent - 2
  closed := significand % 2 = 0

def holds (n : Neighbourhood) (digits : Nat) (unit : Int) : Bool :=
  let (a, b) := scaled digits 10 unit
  let (c, d) := scaled 1 2 n.exponent
  let x := a * d
  let y := b * c
  if n.closed then n.low * y ≤ x ∧ x ≤ n.high * y else n.low * y < x ∧ x < n.high * y

/-- The point of the grid of step `10 ^ unit` nearest to the middle among
the two around it that lie in the interval, the upper one at equal distance. -/
def nearest? (n : Neighbourhood) (unit : Int) : Option Nat :=
  let (c, d) := scaled n.mid 2 n.exponent
  let (a, b) := scaled 1 10 unit
  let below := c * b / (d * a)
  let above := below + 1
  let rest := 2 * (c * b % (d * a))
  let first := if rest < d * a then below else above
  let second := if rest < d * a then above else below
  if n.holds first unit then some first
  else if n.holds second unit then some second
  else none

/-- The digits and the unit of the last one, trying `count` more digits from
`unit` on. -/
def search (n : Neighbourhood) : (count : Nat) → (unit : Int) → Nat × Int
  | 0, unit => (roundHalfEven (n.mid * (scaled 1 2 n.exponent).1 * (scaled 1 10 unit).2)
      ((scaled 1 2 n.exponent).2 * (scaled 1 10 unit).1), unit)
  | count + 1, unit =>
    match n.nearest? unit with
    | some digits => (digits, unit)
    | none => n.search count (unit - 1)

end Neighbourhood

namespace Binary64

def shortest (significand : Nat) (exponent : Int) : List Char × Int :=
  let n := Neighbourhood.ofFinite significand exponent
  let (num, den) := scaled significand 2 exponent
  let (digits, unit) := n.search 17 (decimalExponent num den)
  let all := Nat.toDigits 10 digits
  (trimmedDigits digits, unit + (all.length - 1 : Nat))

def positionalText (digits : List Char) (exponent : Int) : String :=
  if exponent < 0 then
    String.ofList ('0' :: '.' :: (List.replicate (-exponent - 1).toNat '0' ++ digits))
  else
    let places := exponent.toNat + 1
    let whole := digits.take places ++ List.replicate (places - digits.length) '0'
    let fraction := digits.drop places
    String.ofList (whole ++ '.' :: (if fraction.isEmpty then ['0'] else fraction))

/-- The shortest text: positional from `1e-4` up to below `1e16`, with an
exponent outside. -/
def shortestText : Binary64 → String
  | .nan => "NaN"
  | .infinite negative => signText negative ++ "inf"
  | .finite negative m e =>
    if m = 0 then signText negative ++ "0.0"
    else
      let (digits, exponent) := shortest m e
      signText negative ++
        if -4 ≤ exponent ∧ exponent < 16 then positionalText digits exponent
        else scientificText digits exponent

end Binary64

class NumberText (K : Type) where
  text : K → String

instance floatNumberText : NumberText Float := ⟨fun x => (Binary64.ofFloat x).shortestText⟩

end GradientGraph
