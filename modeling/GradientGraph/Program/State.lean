import GradientGraph.Graph.State
import GradientGraph.Plan.Search

/-!
# Programs

A program evaluates and differentiates targets with respect to the sources
below them. It owns no variable and knows nodes by identity only. Its plan
is made when first needed and kept until it is made again on request, so a
plan can be older than the graph; `ready` then refuses it.
-/

set_option autoImplicit false

namespace GradientGraph

inductive PlanState where
  | absent
  | compiled (plan : Plan)
  | failed (error : Error)

/-- A target's derivative when a reverse pass began and when it ended. -/
structure Seed (D : Type) where
  node : NodeId
  before : Stamped D
  after : Option (Stamped D)

structure Program (D : Type) where
  targets : NodeSet
  /-- Bounds of the search, whether or not it reaches them. -/
  sources : NodeSet
  state : PlanState := .absent
  /-- What the last reverse pass started from. -/
  seeds : List (Seed D) := []

namespace Program

variable {K D : Type}

def create (targets sources : List NodeId) : Except Error (Program D) :=
  if targets.isEmpty then .error .noTargets
  else .ok { targets := .ofList targets, sources := .ofList sources }

def plan? (p : Program D) : Option Plan :=
  match p.state with
  | .compiled plan => some plan
  | _ => none

def error? (p : Program D) : Option Error :=
  match p.state with
  | .failed e => some e
  | _ => none

def build (p : Program D) (g : Graph K D) : Except Error Plan :=
  Plan.build g.arena (·.formula.isSome) p.targets p.sources

def compile (p : Program D) (g : Graph K D) : Program D × Except Error Unit :=
  match p.build g with
  | .ok plan => ({ p with state := .compiled plan }, .ok ())
  | .error e => ({ p with state := .failed e }, .error e)

def compiled (p : Program D) (g : Graph K D) : Bool :=
  match p.state with
  | .compiled plan => plan.isFresh g.arena
  | _ => false

def ready (p : Program D) (g : Graph K D) : Program D × Except Error Plan :=
  let p :=
    match p.state with
    | .compiled _ => p
    | _ => (p.compile g).1
  match p.state with
  | .compiled plan => (p, if plan.isFresh g.arena then .ok plan else .error .stalePlan)
  | .failed e => (p, .error e)
  | .absent => (p, .error .nodeNotIndexed)

def nodesText (ns : List NodeId) : String := listText (ns.map (·.text))

def text (p : Program D) : String :=
  let plan :=
    match p.state with
    | .compiled plan => nodesText plan.order
    | .failed e => "failed: " ++ e.message
    | .absent => "not compiled"
  "Function(sources: " ++ nodesText p.sources.toList ++ ", targets: " ++
    nodesText p.targets.toList ++ ", program: " ++ plan ++ ")"

end Program

end GradientGraph
