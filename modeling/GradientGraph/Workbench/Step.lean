import GradientGraph.Workbench.Item

/-!
# Steps of a workbench

What can be asked of items, of programs over them, and of the graph. Where a
step makes an item, it is stored under the name given last.
-/

set_option autoImplicit false

namespace GradientGraph.Workbench

inductive Argument (K : Type) where
  | ref (name : String)
  | literal (v : Value K)

inductive Place where
  | item (name : String)
  | noted (name : String)

inductive Request where
  | compile
  | evaluate
  | pushTangent
  | pullGradient
  | pushTangentAt (seed : String)
  | pullGradientAt (seed : String)
  | compiled
  | error
  | text
  | order
  | actualSources
  | sets

inductive Step (K D : Type) where
  | newDefault (c : Category) (name : String)
  | newVariable (init : Argument K) (name : String)
  | binary (f : BinaryFunction) (left right : Argument K) (name : String)
  | unary (k : UnaryKernel) (arg : Argument K) (name : String)
  | wrapper (item name : String)
  | evaluator (item name : String)
  | expression (item name : String)
  | kind (item : String)
  | value (item : String)
  | assign (item : String) (init : Argument K)
  | derivative (item : String)
  | setDerivative (item : String) (d : D)
  | text (item : String)
  | hasDerivative (item : String)
  | accumulate (item : String) (d : D)
  | clearDerivative (item : String)
  | stateText (item : String)
  | hasExpression (item : String)
  | isConstant (item : String)
  | forget (item : String)
  | pushForward (item : String)
  | pullBack (item : String) (d : D)
  | isCached (item : String)
  | same (left right : String)
  | node (item : String) (noteAs : Option String)
  | children (place : Place)
  | version (place : Place)
  | contains (place : Place)
  | live
  | isEmpty
  | dump
  | drop (name : String)
  | program (targets sources : List String) (name : String)
  | run (program : String) (request : Request)

end GradientGraph.Workbench
