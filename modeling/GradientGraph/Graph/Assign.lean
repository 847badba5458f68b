import GradientGraph.Graph.Traverse

/-!
# Assignment

A variable is given a literal or a formula, and has its new value at once:
the literal, or what evaluation finds for the formula. An assignment may
displace a formula; the variables that one kept alive are handed back, for
they may have lost their last owner.
-/

set_option autoImplicit false

namespace GradientGraph

namespace Graph

variable {K D : Type}

def newVariable (v : Value K) : GraphM K D NodeId :=
  borrowing do modifyGet fun g =>
    let (n, arena) := g.arena.insert { value := v }
    (n, { g with arena })

/-- Makes `n` the variable computed by `a`, whose value is `v`: what `a`
remembers is dropped, the edges are rebuilt from what `a` reads, and only
then the former formula goes. -/
def attach (n : NodeId) (a : Formula K) (v : Value K) : GraphM K D (List NodeId) := do
  modify (Graph.forget a)
  editArena (·.resetChildren n)
  a.children.forM fun c => editArena (·.addChild n c)
  let displaced := (((← get).formula? n).map (·.nodes)).getD []
  modify (updateCell n fun c => { c with value := v, formula := some a })
  return displaced

def assignLiteral (n : NodeId) (v : Value K) : GraphM K D (List NodeId) := do
  let former := (← get).formula? n
  modify fun g => g.countAssignment.updateCell n fun c => { c with value := v, formula := none }
  match former with
  | none => return []
  | some a =>
    editArena (·.resetChildren n)
    return a.nodes

theorem assignLiteral_run (n : NodeId) (v : Value K) (g : Graph K D) :
    assignLiteral n v g =
      let changed := g.countAssignment.updateCell n fun c => { c with value := v, formula := none }
      some (match g.formula? n with
        | none => ([], changed)
        | some a => (a.nodes, { changed with arena := changed.arena.resetChildren n })) := by
  change (match g.formula? n with | none => _ | some a => _ : GraphM K D _) _ = _
  cases g.formula? n <;> rfl

theorem addChildren_run (n : NodeId) (cs : List NodeId) (g : Graph K D) :
    (cs.forM fun c => editArena (·.addChild n c) : GraphM K D PUnit) g =
      some ((), { g with arena := cs.foldl (fun a c => a.addChild n c) g.arena }) := by
  induction cs generalizing g with
  | nil => rfl
  | cons c cs ih => exact ih { g with arena := g.arena.addChild n c }

variable [Zero K] [One K] [Add K] [Mul K] [MulAdd K] [Capacity K] [NatCast K] [Calculus K]

/-- Computes `n` from `a` from now on. The formula may read `n` itself, and
then reads its value before the assignment. -/
def assignFormula (n : NodeId) (a : Formula K) : GraphM K D (List NodeId) := do
  let v ← a.expression.evaluate
  modify countAssignment
  attach n a v

def newComputed (a : Formula K) : GraphM K D NodeId := do
  let v ← a.expression.evaluate
  let n ← newVariable v
  let _ ← attach n a v
  return n

def evaluateOnce (a : Formula K) : GraphM K D (Value K) := do
  let v ← a.expression.evaluate
  modify (Graph.forget a)
  return v

end Graph

end GradientGraph
