import GradientGraph.Differential
import GradientGraph.Formula
import GradientGraph.Node.Arena

/-!
# The state of a graph

Every live node is a variable: a value, a derivative once one was set, and
the formula it is computed from if it is not a literal. Beside the
variables the graph keeps what shared parts of expressions remember.

A derivative carries a stamp, new for each derivative that is computed or
given and kept when one is passed on unchanged. Equal stamps therefore mean
that nothing has touched a derivative, which equal numbers do not.

Whoever looks at the arena or changes it borrows it for that time. No node
leaves the arena while it is borrowed.
-/

set_option autoImplicit false

namespace GradientGraph

structure Stamped (D : Type) where
  stamp : Nat
  value : D

structure Cell (K D : Type) where
  value : Value K
  derivative : Option (Stamped D) := none
  formula : Option (Formula K) := none

/-- How the arena is borrowed, and what came of it. -/
structure Access where
  /-- How many computations have the arena in their hands. -/
  borrows : Nat := 0
  /-- How many nodes stayed in the arena because it was borrowed when they lost
  their last owner. No operation reads this count. -/
  lost : Nat := 0

structure Graph (K D : Type) where
  arena : Arena (Cell K D) := {}
  /-- Values remembered by shared parts. -/
  values : List (Label × Value K) := []
  /-- Tangents remembered by shared parts; one may be known to be zero. -/
  tangents : List (Label × Option (Stamped D)) := []
  nextLabel : Label := 0
  nextStamp : Nat := 0
  /-- How many assignments were made to variables. No operation reads this count.
  It tells how far the versions are from wrapping around. -/
  assigned : Nat := 0
  access : Access := {}

/-- Computations on a graph. One without a result met shapes that an array
operation cannot combine. -/
abbrev GraphM (K D : Type) := StateT (Graph K D) Option

def Cell.nodes {K D : Type} (c : Cell K D) : List NodeId :=
  (c.formula.map (·.nodes)).getD []

namespace Graph

variable {K D : Type}

def fault {α : Type} : GraphM K D α := fun _ => none

def ofOption {α : Type} : Option α → GraphM K D α
  | some x => pure x
  | none => fault

/-- Runs a computation that has the arena in its hands. -/
def borrowing {α : Type} (m : GraphM K D α) : GraphM K D α := do
  modify fun g => { g with access.borrows := g.access.borrows + 1 }
  let x ← m
  modify fun g => { g with access.borrows := g.access.borrows - 1 }
  return x

def look {α : Type} (f : Graph K D → α) : GraphM K D α := borrowing do return f (← get)

def editArena (f : Arena (Cell K D) → Arena (Cell K D)) : GraphM K D Unit :=
  borrowing do modify fun g => { g with arena := f g.arena }

def freshLabel : GraphM K D Label :=
  modifyGet fun g => (g.nextLabel, { g with nextLabel := g.nextLabel + 1 })

def stamp (d : D) : GraphM K D (Stamped D) :=
  modifyGet fun g => (⟨g.nextStamp, d⟩, { g with nextStamp := g.nextStamp + 1 })

def cell (n : NodeId) : GraphM K D (Cell K D) := do
  ofOption ((← get).arena.content? n)

def value? (g : Graph K D) (n : NodeId) : Option (Value K) :=
  (g.arena.content? n).map (·.value)

def derivative? (g : Graph K D) (n : NodeId) : Option (Stamped D) :=
  (g.arena.content? n).bind (·.derivative)

def formula? (g : Graph K D) (n : NodeId) : Option (Formula K) :=
  (g.arena.content? n).bind (·.formula)

def sizeAt (g : Graph K D) (n : NodeId) : Nat := ((g.value? n).map (·.size)).getD 0

def updateCell (n : NodeId) (f : Cell K D → Cell K D) (g : Graph K D) : Graph K D :=
  { g with arena := g.arena.modify n fun x => { x with content := f x.content } }

def setValue (n : NodeId) (v : Value K) : Graph K D → Graph K D :=
  updateCell n fun c => { c with value := v }

def setDerivative (n : NodeId) (d : Option (Stamped D)) : Graph K D → Graph K D :=
  updateCell n fun c => { c with derivative := d }

def remembered? (g : Graph K D) (label : Label) : Option (Value K) := g.values.lookup label

def rememberedTangent? (g : Graph K D) (label : Label) : Option (Option (Stamped D)) :=
  g.tangents.lookup label

def remember (label : Label) (v : Value K) (g : Graph K D) : Graph K D :=
  { g with values := (label, v) :: g.values }

def rememberTangent (label : Label) (t : Option (Stamped D)) (g : Graph K D) : Graph K D :=
  { g with tangents := (label, t) :: g.tangents }

def countAssignment (g : Graph K D) : Graph K D := { g with assigned := g.assigned + 1 }

def forget (a : Formula K) (g : Graph K D) : Graph K D :=
  { g with
    values := g.values.filter fun x => !a.labels.contains x.1
    tangents := g.tangents.filter fun x => !a.labels.contains x.1 }

end Graph

end GradientGraph
