import GradientGraph.Error
import GradientGraph.Host.Object
import GradientGraph.Host.Table
import GradientGraph.Node.Set

/-!
# Answers

What a step of a session is answered with, and why a step can fail. A step
that met shapes an array operation cannot combine ends the session; its
entry in the transcript is the last.
-/

set_option autoImplicit false

namespace GradientGraph

inductive Failure where
  | refused (e : Error)
  /-- A step names something that is not there. -/
  | noSuchName (name : String)
  /-- An object that is no variable was asked for its node. -/
  | noNode (typeName : String)
  /-- A literal variable was asked for its expression. -/
  | noExpression
  /-- An operator has no kernel for the categories of its operands. -/
  | unsupported
deriving DecidableEq, Repr

inductive Answer (K : Type) where
  | nothing
  | object (o : Object K)
  | value (v : Value K)
  | flag (b : Bool)
  | text (s : String)
  | texts (ts : List String)
  | count (n : Nat)
  | version (v : UInt64)
  | ranks (rs : List (List Nat))
  | nodes (ns : List NodeId)
  | error (e : Error)
  /-- Sources and targets of a program. -/
  | sets (sources targets : NodeSet)
  /-- Value and derivative of each variable by name. -/
  | variables (vs : Table (Except Error (Object K) × Except Error (Object K)))

namespace Answer

variable {K : Type}

def ofOption {α : Type} (f : α → Answer K) : Option α → Answer K
  | some x => f x
  | none => .nothing

end Answer

inductive Entry (K : Type) where
  | answer (a : Answer K)
  | failure (f : Failure)
  | fault

end GradientGraph
