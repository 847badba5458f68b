import GradientGraph.Host.Parameter

/-!
# Steps of a session

What a host can ask of a module and of the graph behind it. Arguments are
literal objects and the names of stored ones.
-/

set_option autoImplicit false

namespace GradientGraph.Session

inductive Argument (K : Type) where
  | none
  | bool (b : Bool)
  | float (x : K)
  | str (s : String)
  | array (a : Tensor K)
  | tuple (items : List (Argument K))
  | ref (name : String)

inductive Request (K : Type) where
  | call (name : String) (args : List (Argument K))
  | newInstance (className : String) (args : List (Argument K))
  | method (receiver : Argument K) (name : String) (args : List (Argument K))
  | invoke (receiver : Argument K) (args : List (Argument K))
  | binary (name : String) (left right : Argument K)
  | unary (name : String) (operand : Argument K)
  | bare (className : String)
  | copy (object : Argument K)

inductive Place (K : Type) where
  | object (o : Argument K)
  | noted (name : String)

inductive Step (K : Type) where
  /-- Makes an object, and stores it if a name is given. -/
  | make (request : Request K) (storeAs : Option String)
  | define (name label : String) (params : List Param)
  | defineMethod (className name label : String) (params : List Param)
  | addClass (name : String) (bases : List String) (doc : String)
  | setDoc (name doc : String)
  | doc (name : String)
  | moduleName
  | moduleText
  | hasFunction (name : String)
  | hasClass (name : String)
  | ranks (name : String)
  | lineage (className : String)
  | isInstance (o : Argument K) (className : String)
  | typeName (o : Argument K)
  | text (o : Argument K)
  | equal (left right : Argument K)
  | drop (name : String)
  /-- Shows the node of an object, and notes it if a name is given. -/
  | node (o : Argument K) (noteAs : Option String)
  | children (place : Place K)
  | version (place : Place K)
  | contains (place : Place K)
  | live
  | dump

end GradientGraph.Session
