import GradientGraph.Graph.Traverse
import GradientGraph.Proofs.Graph.View

/-!
# The traversals, side by side

A traversal of an operation treats its two operands alike. Forward, it has the tangents of
both and puts together those that there are; backward, it sends a gradient down one side and
then down the other. What is proved of traversals is proved of one such step.
-/

set_option autoImplicit false

namespace GradientGraph

open GradientGraph.Graph

variable {K D : Type}

theorem Graph.ofOption_some {α : Type} (x : α) : (ofOption (some x) : GraphM K D α) = pure x := rfl

theorem Graph.ofOption_bind {α β : Type} (x : Option α) (f : α → Option β) :
    (ofOption (x.bind f) : GraphM K D β) = ofOption x >>= fun a => ofOption (f a) := by
  cases x <;> rfl

variable [Zero K] [Calculus K] [Differential K D]

namespace BinaryKernel

def pushForward (k : BinaryKernel) (x y : Value K) : Option D → Option D → Option (Option D)
  | none, none => some none
  | some s, none => do
    let j ← k.partialLeft x y
    return some (← Differential.pushThrough j s)
  | none, some t => do
    let j ← k.partialRight x y
    return some (← Differential.pushThrough j t)
  | some s, some t => do
    let i ← k.partialLeft x y
    let j ← k.partialRight x y
    let c ← Differential.pushThrough i s
    let d ← Differential.pushThrough j t
    return some (← Differential.accumulate c d)

def carry (k : BinaryKernel) (x y : Value K) (s t : Option (Stamped D)) :
    GraphM K D (Option (Stamped D)) := do
  match ← ofOption (k.pushForward x y (s.map (·.value)) (t.map (·.value))) with
  | none => return none
  | some d => return some (← stamp d)

end BinaryKernel

namespace Expression

variable [One K] [Add K] [Mul K] [MulAdd K] [Capacity K] [NatCast K]

def pullSide (e : Expression K) (j : Option (Jacobian K)) (d : D) : GraphM K D Unit :=
  if e.isConstant then pure () else do
    let j ← ofOption j
    e.pullBack (← ofOption (Differential.pullThrough d j))

theorem pushForward_binary (k : BinaryKernel) (l r : Expression K) :
    (binary k l r).pushForward = (do
      let s ← l.pushForward
      let t ← r.pushForward
      if s.isNone && t.isNone then return none
      else k.carry (← l.evaluate) (← r.evaluate) s t : GraphM K D (Option (Stamped D))) := by
  rw [pushForward]
  congr 1
  funext s
  congr 1
  funext t
  cases s with
  | none =>
    cases t with
    | none => rfl
    | some t => simp [BinaryKernel.carry, BinaryKernel.pushForward, ofOption_bind, ofOption_some]
  | some s =>
    cases t with
    | none => simp [BinaryKernel.carry, BinaryKernel.pushForward, ofOption_bind, ofOption_some]
    | some t => simp [BinaryKernel.carry, BinaryKernel.pushForward, ofOption_bind, ofOption_some]

theorem pullBack_unary (k : UnaryKernel) (a : Expression K) (d : D) :
    (unary k a).pullBack d = (if a.isConstant then pure () else do
      let x ← a.evaluate
      a.pullSide (some (k.jacobian x)) d : GraphM K D Unit) := by
  rw [pullBack]
  unfold pullSide
  by_cases ha : a.isConstant <;> simp [ha, ofOption_some]

theorem pullBack_binary (k : BinaryKernel) (l r : Expression K) (d : D) :
    (binary k l r).pullBack d = (if l.isConstant && r.isConstant then pure () else do
      let x ← l.evaluate
      let y ← r.evaluate
      l.pullSide (k.partialLeft x y) d
      r.pullSide (k.partialRight x y) d : GraphM K D Unit) := by
  rw [pullBack]
  unfold pullSide
  by_cases hl : l.isConstant <;> simp [hl]

end Expression

end GradientGraph
