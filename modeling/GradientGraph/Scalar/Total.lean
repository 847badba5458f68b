/-!
# Sums in a fixed order

Scalars that round do not add associatively, so the value of a sum depends on
the order of its terms, and every sum of this library says which order it
takes. Over a ring all of them are the sum of the terms.

* `total` runs from left to right.
* `laneTotal` runs in eight lanes, for terms that are read from neighbouring
  places.
* `productTotal` runs from left to right through `mulAdd`, for the entries of
  a matrix product. It may leave out terms that are seen to be zero.
-/

set_option autoImplicit false

namespace GradientGraph

/-- Arithmetic for sums of products. -/
class MulAdd (K : Type) where
  /-- A product and a sum in one step: `mulAdd a b c` is `a * b + c`, and
  scalars that round do so only once. -/
  mulAdd : K → K → K → K
  /-- Whether products with the scalar are seen to be zero, as far as the
  other factor is finite. -/
  isZero : K → Bool
  isFinite : K → Bool

instance (priority := low) plainMulAdd {K : Type} [Add K] [Mul K] : MulAdd K where
  mulAdd a b c := a * b + c
  isZero _ := false
  isFinite _ := true

variable {K : Type}

/-- The indices below `n` whose scalar is not seen to be zero, before those in
`ks`. The others add nothing to a sum of finite products. -/
def support [MulAdd K] (f : Nat → K) : (n : Nat) → (ks : List Nat) → List Nat
  | 0, ks => ks
  | n + 1, ks => support f n (if MulAdd.isZero (f n) then ks else n :: ks)

def commonIndices : List Nat → List Nat → List Nat
  | [], _ => []
  | x :: xs, ys =>
    match ys.dropWhile (· < x) with
    | [] => []
    | y :: rest => if x = y then x :: commonIndices xs rest else commonIndices xs (y :: rest)

theorem commonIndices_self (xs : List Nat) : commonIndices xs xs = xs := by
  induction xs with
  | nil => rfl
  | cons x xs ih => simp [commonIndices, ih]

variable [Add K]

def totalFrom (start : K) : Nat → (Nat → K) → K
  | 0, _ => start
  | n + 1, f => totalFrom start n f + f n

variable [Zero K]

def total (n : Nat) (f : Nat → K) : K := totalFrom 0 n f

def lane (n : Nat) (f : Nat → K) (k : Nat) : K := total (n / 8) fun i => f (8 * i + k)

/-- The sum of `f 0`, `f 1`, up to `f (n - 1)` in eight lanes. The lanes are
joined in pairs four apart, and the terms of the last block, if it is not
full, come at the end. -/
def laneTotal (n : Nat) (f : Nat → K) : K :=
  totalFrom (total 4 fun k => lane n f k + lane n f (k + 4)) (n % 8)
    fun i => f (8 * (n / 8) + i)

def productBlock : Nat := 256

/-- The sum of `f k * g k` over the indices, on top of what is `done` and of
the `run` of the present block. Each product is added to the run as it is
formed; the run is added to what is done where the next block begins. -/
def productFrom [MulAdd K] (f g : Nat → K) (done run : K) (block : Nat) : List Nat → K
  | [] => done + run
  | k :: ks =>
    if k / productBlock = block then
      productFrom f g done (MulAdd.mulAdd (f k) (g k) run) block ks
    else
      productFrom f g (done + run) (MulAdd.mulAdd (f k) (g k) 0) (k / productBlock) ks

def productTotal [MulAdd K] (f g : Nat → K) (ks : List Nat) : K := productFrom f g 0 0 0 ks

end GradientGraph
