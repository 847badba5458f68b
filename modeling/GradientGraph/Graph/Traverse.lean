import GradientGraph.Graph.State

/-!
# Traversals of an expression

Evaluation and the forward traversal work from the variables upwards and
let shared parts remember their result. The backward traversal hands a
gradient down and leaves it at the variables.
-/

set_option autoImplicit false

namespace GradientGraph

namespace Graph

variable {K D : Type} [Zero K] [One K] [Add K] [Mul K] [MulAdd K] [Capacity K] [NatCast K]
  [Calculus K] [Differential K D]

def accumulate (n : NodeId) (d : D) : GraphM K D Unit := do
  let c ← cell n
  let sum ← match c.derivative with
    | some old => ofOption (Differential.accumulate old.value d)
    | none => pure d
  let new ← stamp sum
  modify (setDerivative n (some new))

end Graph

namespace Expression

open GradientGraph.Graph

section Evaluation

variable {K D : Type} [Zero K] [One K] [Add K] [Mul K] [MulAdd K] [Capacity K] [NatCast K]
  [Calculus K]

def evaluate : Expression K → GraphM K D (Value K)
  | .literal v => pure v
  | .read _ n => return (← cell n).value
  | .unary k a => return k.eval (← a.evaluate)
  | .binary k l r => do
    let x ← l.evaluate
    let y ← r.evaluate
    ofOption (k.eval x y)
  | .shared label e => do
    match (← get).remembered? label with
    | some v => pure v
    | none =>
      let v ← e.evaluate
      modify (remember label v)
      return v

variable [Differential K D]

/-- The tangent of the expression from the tangents of its variables, if any
of them has one. -/
def pushForward : Expression K → GraphM K D (Option (Stamped D))
  | .literal _ => return none
  | .read _ n => return (← cell n).derivative
  | .unary k a => do
    match ← a.pushForward with
    | none => return none
    | some t =>
      let x ← a.evaluate
      let d ← ofOption (Differential.pushThrough (k.jacobian x) t.value)
      return some (← stamp d)
  | .binary k l r => do
    let s ← l.pushForward
    let t ← r.pushForward
    match s, t with
    | none, none => return none
    | some s, none =>
      let x ← l.evaluate
      let y ← r.evaluate
      let j ← ofOption (k.partialLeft x y)
      let d ← ofOption (Differential.pushThrough j s.value)
      return some (← stamp d)
    | none, some t =>
      let x ← l.evaluate
      let y ← r.evaluate
      let j ← ofOption (k.partialRight x y)
      let d ← ofOption (Differential.pushThrough j t.value)
      return some (← stamp d)
    | some s, some t =>
      let x ← l.evaluate
      let y ← r.evaluate
      let i ← ofOption (k.partialLeft x y)
      let j ← ofOption (k.partialRight x y)
      let c ← ofOption (Differential.pushThrough i s.value)
      let d ← ofOption (Differential.pushThrough j t.value)
      return some (← stamp (← ofOption (Differential.accumulate c d)))
  | .shared label e => do
    match (← get).rememberedTangent? label with
    | some t => return t
    | none =>
      let t ← e.pushForward
      modify (rememberTangent label t)
      return t

/-- Adds the gradient, carried through the expression, to the derivative of
every variable it reads. -/
def pullBack : Expression K → D → GraphM K D Unit
  | .literal _, _ => return ()
  | .read _ n, g => accumulate n g
  | .unary k a, g =>
    if a.isConstant then pure ()
    else do
      let x ← a.evaluate
      a.pullBack (← ofOption (Differential.pullThrough g (k.jacobian x)))
  | .binary k l r, g =>
    if l.isConstant && r.isConstant then pure ()
    else do
      let x ← l.evaluate
      let y ← r.evaluate
      unless l.isConstant do
        let j ← ofOption (k.partialLeft x y)
        l.pullBack (← ofOption (Differential.pullThrough g j))
      unless r.isConstant do
        let j ← ofOption (k.partialRight x y)
        r.pullBack (← ofOption (Differential.pullThrough g j))
  | .shared _ e, g => e.pullBack g

end Evaluation

end Expression

end GradientGraph
