/-!
# Scalar operators and their derivatives

An operator on scalars is known by three things: its value, and the
derivative of that value in each operand. `Calculus` is the supply of such
rules that every array kernel draws on; `Elementary.binary` and
`Elementary.unary` are the usual ones, over any type with the field
operations and the elementary functions.
-/

set_option autoImplicit false

namespace GradientGraph

inductive BinOp where
  | add | sub | mul | div | pow
deriving DecidableEq, Repr

inductive UnOp where
  | neg | exp | log | sqrt | sin | cos | square | minimum | maximum
deriving DecidableEq, Repr

structure BinaryRule (K : Type) where
  eval : K → K → K
  dLeft : K → K → K
  dRight : K → K → K

/-- Value and derivative of an operator on one scalar. The derivative takes
the operand and the value there. -/
structure UnaryRule (K : Type) where
  eval : K → K
  deriv : K → K → K

class Calculus (K : Type) where
  binary : BinOp → BinaryRule K
  unary : UnOp → UnaryRule K

class Elementary (K : Type) where
  exp : K → K
  log : K → K
  sqrt : K → K
  sin : K → K
  cos : K → K
  pow : K → K → K
  half : K

namespace Elementary

variable {K : Type} [Zero K] [One K] [Add K] [Sub K] [Mul K] [Div K] [Neg K] [NatCast K]
  [LT K] [DecidableLT K] [Elementary K]

def binary : BinOp → BinaryRule K
  | .add => ⟨fun l r => l + r, fun _ _ => 1, fun _ _ => 1⟩
  | .sub => ⟨fun l r => l - r, fun _ _ => 1, fun _ _ => -1⟩
  | .mul => ⟨fun l r => l * r, fun _ r => r, fun l _ => l⟩
  | .div => ⟨fun l r => l / r, fun _ r => 1 / r, fun l r => -l / (r * r)⟩
  | .pow => ⟨pow, fun l r => r * pow l (r - 1), fun l r => pow l r * log l⟩

/-- `minimum` and `maximum` are the negative and the positive part. Their
derivative is one strictly inside the kept side and zero elsewhere, so an
operand that compares with nothing counts as zero. -/
def unary : UnOp → UnaryRule K
  | .neg => ⟨fun x => -x, fun _ _ => -1⟩
  | .exp => ⟨exp, fun _ v => v⟩
  | .log => ⟨log, fun x _ => 1 / x⟩
  | .sqrt => ⟨sqrt, fun _ v => half / v⟩
  | .sin => ⟨sin, fun x _ => cos x⟩
  | .cos => ⟨cos, fun x _ => -(sin x)⟩
  | .square => ⟨fun x => x * x, fun x _ => ((2 : Nat) : K) * x⟩
  | .minimum => ⟨fun x => if x < 0 then x else 0, fun x _ => if x < 0 then 1 else 0⟩
  | .maximum => ⟨fun x => if 0 < x then x else 0, fun x _ => if 0 < x then 1 else 0⟩

end Elementary

end GradientGraph
