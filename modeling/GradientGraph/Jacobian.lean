import GradientGraph.Array.Value
import GradientGraph.Array.Mat

/-!
# Local Jacobians

The derivative of one operation in one operand, over flattened elements. The
forms name the structure that products can exploit; `Jacobian.dense` spells
out the matrix that a form stands for beside `n` flattened elements.
-/

set_option autoImplicit false

namespace GradientGraph

inductive Jacobian (K : Type) where
  /-- A multiple of the identity, of whatever size its neighbour has. -/
  | scale (c : K)
  /-- A diagonal matrix: element-wise operations. -/
  | diagonal (p : Array K)
  /-- One column: a scalar operand repeated over an array. -/
  | column (p : Array K)
  /-- One row: an array reduced to a scalar. -/
  | row (p : Array K)
  /-- Any other linear map. -/
  | dense (m : Mat K)

namespace Jacobian

variable {K : Type}

def head? : Jacobian K → Option K
  | .scale c => some c
  | .diagonal p | .column p | .row p => p[0]?
  | .dense m => m.entries[0]?

variable [Zero K]

def ofElements (v : Value K) : Jacobian K :=
  match v.shape with
  | .scalar => .scale (v.entry 0)
  | _ => .diagonal v.entries

/-- The matrix a form stands for, with `n` the size a multiple of the
identity takes from its neighbour. -/
def toMat (n : Nat) : Jacobian K → Mat K
  | .scale c => Mat.ofFn n n fun i j => if i = j then c else 0
  | .diagonal p => Mat.ofFn p.size p.size fun i j => if i = j then p.getD i 0 else 0
  | .column p => Mat.ofColumn p
  | .row p => Mat.ofRow p
  | .dense m => m

end Jacobian

end GradientGraph
