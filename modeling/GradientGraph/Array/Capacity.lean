/-!
# Capacity

Scalars that are stored take room, so an array of them exists only if its
places can be addressed. Exact scalars are not stored anywhere in particular
and set no limit.
-/

set_option autoImplicit false

namespace GradientGraph

class Capacity (K : Type) where
  fits (K) : (dims : List Nat) → Bool

instance (priority := low) plainCapacity {K : Type} : Capacity K where
  fits _ := true

@[simp] theorem plainCapacity_fits (K : Type) (dims : List Nat) :
    @Capacity.fits K plainCapacity dims = true := rfl

def entryCount (dims : List Nat) : Nat := dims.foldl (· * ·) 1

/-- What the dimensions of an array span, its empty ones left out. An empty
array still numbers its rows and columns, and is held to this as well. -/
def extent (dims : List Nat) : Nat := entryCount (dims.filter (· ≠ 0))

def largestDistance : Nat := 9223372036854775807

/-- Whether the entries, of `width` addresses each, and the span of the
dimensions stay within the largest distance. -/
def isAddressable (width : Nat) (dims : List Nat) : Bool :=
  extent dims ≤ largestDistance ∧ entryCount dims * width ≤ largestDistance

end GradientGraph
