import GradientGraph.Number.Binary64

/-!
# Numbers to a fixed count of significant digits

The exact value is rounded to the given number of digits, a half going to
the even neighbour, and written with one digit before the point and an
exponent always.
-/

set_option autoImplicit false

namespace GradientGraph

def roundHalfEven (num den : Nat) : Nat :=
  let q := num / den
  let r := 2 * (num % den)
  if r < den then q else if den < r then q + 1 else if q % 2 = 0 then q else q + 1

def significant (count num den : Nat) : Nat × Int :=
  let e := decimalExponent num den
  let (a, b) := scaled den 10 (e - (count - 1 : Nat))
  let digits := roundHalfEven (num * b) a
  if digits = Nat.pow 10 count then (Nat.pow 10 (count - 1), e + 1) else (digits, e)

def scientificText (digits : List Char) (exponent : Int) : String :=
  match digits with
  | [] => "0e0"
  | [d] => String.ofList [d] ++ "e" ++ toString exponent
  | d :: ds => String.ofList (d :: '.' :: ds) ++ "e" ++ toString exponent

namespace Binary64

def signText (negative : Bool) : String := if negative then "-" else ""

def significantText (count : Nat) : Binary64 → String
  | .nan => "nan"
  | .infinite negative => signText negative ++ "inf"
  | .finite negative m e =>
    if m = 0 then signText negative ++ "0e0"
    else
      let (num, den) := scaled m 2 e
      let (digits, exponent) := significant count num den
      signText negative ++ scientificText (trimmedDigits digits) exponent

end Binary64

def numberText (x : Float) : String := (Binary64.ofFloat x).significantText 10

end GradientGraph
