/-!
# Shapes and categories

A value is a scalar, a vector or a matrix. The category is the number of
dimensions; the shape adds their lengths.
-/

set_option autoImplicit false

namespace GradientGraph

inductive Category where
  | scalar | vector | matrix
deriving DecidableEq, Repr

namespace Category

def name : Category → String
  | .scalar => "Scalar"
  | .vector => "Vector"
  | .matrix => "Matrix"

def lowerName : Category → String
  | .scalar => "scalar"
  | .vector => "vector"
  | .matrix => "matrix"

end Category

inductive Shape where
  | scalar
  | vector (length : Nat)
  | matrix (rows cols : Nat)
deriving DecidableEq, Repr

namespace Shape

def size : Shape → Nat
  | .scalar => 1
  | .vector n => n
  | .matrix r c => r * c

def dims : Shape → List Nat
  | .scalar => []
  | .vector n => [n]
  | .matrix r c => [r, c]

def category : Shape → Category
  | .scalar => .scalar
  | .vector _ => .vector
  | .matrix _ _ => .matrix

end Shape

end GradientGraph
