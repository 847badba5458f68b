/-!
# Causes of failure

Why a request on a graph, a function or a module was refused.
-/

set_option autoImplicit false

namespace GradientGraph

inductive Error where
  /-- A function was asked for with nothing to compute. -/
  | noTargets
  /-- Between sources and targets a node depends on itself. -/
  | cyclicDependency
  /-- A tangent was to be seeded outside the sources of the plan. -/
  | notASource
  /-- A gradient was to be seeded outside the targets. -/
  | notATarget
  /-- A node of the plan was reassigned or dropped after it was made. -/
  | stalePlan
  /-- A node is no longer live. -/
  | nodeNotIndexed
  /-- No overload of a function or a method takes the arguments. -/
  | noMatchingOverload (name : String)
  /-- The operands of an operator have shapes it cannot combine. -/
  | shapeMismatch (op : String) (left right : List Nat)
  /-- An object cannot be used in the way asked for. -/
  | typeError (text : String)
deriving DecidableEq, Repr

def listText (items : List String) : String := "[" ++ ", ".intercalate items ++ "]"

namespace Error

def message : Error → String
  | .noTargets => "no targets provided"
  | .cyclicDependency => "cyclic dependency in compiled program"
  | .notASource => "seed is not an actual source of the function"
  | .notATarget => "seed is not a target of the function"
  | .stalePlan => "compiled program is stale, call compile() after assigning new expressions"
  | .nodeNotIndexed => "Node not indexed in graph"
  | .noMatchingOverload name => "no overload of `" ++ name ++ "` matches the given arguments"
  | .shapeMismatch op left right =>
    "operands of `" ++ op ++ "` have incompatible shapes " ++ listText (left.map toString) ++
      " and " ++ listText (right.map toString)
  | .typeError text => "Type error: " ++ text

end Error

end GradientGraph
