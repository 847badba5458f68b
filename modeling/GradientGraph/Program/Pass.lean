import GradientGraph.Graph.Traverse
import GradientGraph.Program.State

/-!
# Passes of a program

Evaluation and the forward pass go through the plan in order, the reverse
pass goes backwards. Sources are read and never recomputed. After a
differentiating pass every node of the plan has a derivative; where nothing
flowed it is zero, as wide or as high as the seeds were.

A reverse pass adds what flows into a target to the seed the target held.
The seed is therefore kept, and the next pass that is not seeded itself
starts from it again, unless the derivative was touched in between.
-/

set_option autoImplicit false

namespace GradientGraph

variable {K D : Type} [Zero K] [One K] [Add K] [Mul K] [MulAdd K] [Capacity K] [NatCast K]
  [Calculus K] [Differential K D]

namespace Graph

def evaluateNode (n : NodeId) : GraphM K D Unit := do
  match (← cell n).formula with
  | none => return ()
  | some a =>
    let v ← a.expression.evaluate
    modify (Graph.forget a)
    modify (setValue n v)

def pushForwardNode (n : NodeId) : GraphM K D Unit := do
  match (← cell n).formula with
  | none => return ()
  | some a =>
    let t ← a.expression.pushForward
    modify (Graph.forget a)
    modify (setDerivative n t)

def pullBackNode (n : NodeId) : GraphM K D Unit := do
  let c ← cell n
  match c.formula, c.derivative with
  | some a, some d =>
    a.expression.pullBack d.value
    modify (Graph.forget a)
  | _, _ => return ()

def giveDerivative (n : NodeId) (d : D) : GraphM K D Unit := do
  let new ← stamp d
  modify (setDerivative n (some new))

def clearDerivative (n : NodeId) : GraphM K D Unit := modify (setDerivative n none)

def fillDerivative (n : NodeId) (rows cols : Nat) : GraphM K D Unit := do
  match (← get).derivative? n with
  | some _ => return ()
  | none => giveDerivative n (← ofOption (Differential.zeros rows cols))

end Graph

namespace Plan

open GradientGraph.Graph

def inner (p : Plan) : List NodeId := p.order.filter (· ∉ p.sources)

def outer (p : Plan) : List NodeId := p.order.filter (· ∈ p.sources)

def evaluate (p : Plan) : GraphM K D Unit := p.inner.forM evaluateNode

/-- The number of columns of the first tangent at a source, one if there is
no tangent. -/
def width (p : Plan) (g : Graph K D) : Nat :=
  ((p.outer.findSome? g.derivative?).map fun d => (Differential.dims d.value).2).getD 1

def height (p : Plan) (targets : NodeSet) (g : Graph K D) : Nat :=
  (((p.order.filter (· ∈ targets)).findSome? g.derivative?).map fun d =>
    (Differential.dims d.value).1).getD 1

def forward (p : Plan) : GraphM K D Unit := do
  let width := p.width (← get)
  p.inner.forM pushForwardNode
  p.order.forM fun n => do fillDerivative n ((← get).sizeAt n) width

def seedSources (p : Plan) (n : NodeId) : GraphM K D Unit := do
  let width := (← get).sizeAt n
  p.outer.forM fun k => do
    if k = n then giveDerivative k (← ofOption (Differential.identity width))
    else giveDerivative k (← ofOption (Differential.zeros ((← get).sizeAt k) width))

/-- Backward from the gradients that the targets hold. The result is what
each of them started and ended with. -/
def backward (p : Plan) (targets : NodeSet) : GraphM K D (List (Seed D)) := do
  let g ← get
  let seeds := (p.order.filter (· ∈ targets)).filterMap fun n => (g.derivative? n).map (n, ·)
  (p.order.filter (· ∉ targets)).forM clearDerivative
  let height := p.height targets (← get)
  p.inner.reverse.forM pullBackNode
  p.order.forM fun n => do fillDerivative n height ((← get).sizeAt n)
  let g ← get
  return seeds.map fun (n, before) => ⟨n, before, g.derivative? n⟩

def seedTargets (p : Plan) (targets : NodeSet) (n : NodeId) : GraphM K D Unit := do
  let height := (← get).sizeAt n
  (p.order.filter (· ∈ targets)).forM fun k => do
    if k = n then giveDerivative k (← ofOption (Differential.identity height))
    else giveDerivative k (← ofOption (Differential.zeros height ((← get).sizeAt k)))

/-- Puts a seed back if its node still holds the derivative that the pass
left there. -/
def restoreSeed (p : Plan) (seed : Seed D) (g : Graph K D) : Graph K D :=
  if seed.node ∈ p.order then
    match g.derivative? seed.node, seed.after with
    | some now, some after =>
      if now.stamp = after.stamp then g.setDerivative seed.node (some seed.before) else g
    | _, _ => g
  else g

def restoreSeeds (p : Plan) (seeds : List (Seed D)) (g : Graph K D) : Graph K D :=
  seeds.foldl (fun g s => p.restoreSeed s g) g

end Plan

namespace Program

open GradientGraph.Graph (look)

/-- Runs a pass on a plan that is fresh, passes `check` and has live nodes
only. -/
def pass (p : Program D) (check : Plan → Except Error Unit)
    (body : Program D → Plan → GraphM K D (Program D)) :
    GraphM K D (Program D × Except Error Unit) := do
  match ← look p.ready with
  | (p, .error e) => return (p, .error e)
  | (p, .ok plan) =>
    match check plan with
    | .error e => return (p, .error e)
    | .ok () =>
      if ← look (plan.isLive ·.arena) then return (← body p plan, .ok ())
      else return (p, .error .nodeNotIndexed)

def evaluate (p : Program D) : GraphM K D (Program D × Except Error Unit) :=
  p.pass (fun _ => .ok ()) fun p plan => do
    plan.evaluate
    return p

def pushTangent (p : Program D) : GraphM K D (Program D × Except Error Unit) :=
  p.pass (fun _ => .ok ()) fun p plan => do
    plan.forward
    return p

def pushTangentAt (p : Program D) (seed : NodeId) :
    GraphM K D (Program D × Except Error Unit) :=
  p.pass (fun plan => if seed ∈ plan.sources then .ok () else .error .notASource)
    fun p plan => do
      plan.seedSources seed
      plan.forward
      return p

def pullGradient (p : Program D) : GraphM K D (Program D × Except Error Unit) :=
  p.pass (fun _ => .ok ()) fun p plan => do
    modify (plan.restoreSeeds p.seeds)
    let seeds ← plan.backward p.targets
    return { p with seeds }

def pullGradientAt (p : Program D) (seed : NodeId) :
    GraphM K D (Program D × Except Error Unit) :=
  p.pass (fun _ => if seed ∈ p.targets then .ok () else .error .notATarget)
    fun p plan => do
      plan.seedTargets p.targets seed
      let seeds ← plan.backward p.targets
      return { p with seeds }

end Program

end GradientGraph
