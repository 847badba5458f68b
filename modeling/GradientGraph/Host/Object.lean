import GradientGraph.Array.Capacity
import GradientGraph.Formula

/-!
# Host objects

What a dynamic host passes to a module and gets back. An instance is a
handle: a variable is known by its node, an operation by its formula, a
program by its number, and a bare instance by a number of its own.
-/

set_option autoImplicit false

namespace GradientGraph

structure Tensor (K : Type) where
  dims : List Nat
  entries : Array K
  size_entries : entries.size = entryCount dims

abbrev ProgramId := Nat

inductive Instance (K : Type) where
  | var (category : Category) (node : NodeId)
  | operation (category : Category) (formula : Formula K)
  | program (id : ProgramId)
  | bare (className : String) (id : Label)

inductive Object (K : Type) where
  | none
  | bool (b : Bool)
  | float (x : K)
  | str (s : String)
  | array (a : Tensor K)
  | tuple (items : List (Object K))
  | inst (i : Instance K)

namespace Category

def expressionClass (c : Category) : String := c.name ++ "Expression"

def operationClass (c : Category) : String := c.name ++ "Operation"

def variableClass (c : Category) : String := c.name ++ "Variable"

end Category

namespace Tensor

variable {K : Type}

/-- The array of the dimensions, if there can be one and it has as many entries. -/
def ofArray? [Capacity K] (dims : List Nat) (entries : Array K) : Option (Tensor K) :=
  if h : entries.size = entryCount dims then
    if Capacity.fits K dims then some ⟨dims, entries, h⟩ else none
  else none

def beq [BEq K] (a b : Tensor K) : Bool :=
  a.dims == b.dims && a.entries.toList == b.entries.toList

end Tensor

namespace Instance

variable {K : Type}

def className : Instance K → String
  | .var c _ => c.variableClass
  | .operation c _ => c.operationClass
  | .program _ => "Function"
  | .bare name _ => name

def node? : Instance K → Option NodeId
  | .var _ n => some n
  | _ => none

def nodes : Instance K → List NodeId
  | .var _ n => [n]
  | .operation _ a => a.nodes
  | _ => []

def same : Instance K → Instance K → Bool
  | .var _ m, .var _ n => m = n
  | .operation _ a, .operation _ b => a.label? = b.label?
  | .program i, .program j => i = j
  | .bare _ i, .bare _ j => i = j
  | _, _ => false

def text (i : Instance K) : String :=
  match i.node? with
  | some n => "<" ++ i.className ++ " " ++ n.text ++ ">"
  | none => "<" ++ i.className ++ ">"

end Instance

namespace Object

variable {K : Type}

def typeName : Object K → String
  | .none => "None"
  | .bool _ => "bool"
  | .float _ => "float"
  | .str _ => "str"
  | .array _ => "array"
  | .tuple _ => "tuple"
  | .inst i => i.className

def instance? : Object K → Option (Instance K)
  | .inst i => some i
  | _ => Option.none

def nodes : Object K → List NodeId
  | .tuple items => nodesOfList items
  | .inst i => i.nodes
  | _ => []
where
  nodesOfList : List (Object K) → List NodeId
    | [] => []
    | o :: os => o.nodes ++ nodesOfList os

/-- Equality as the host sees it: numbers compare as numbers, instances as
handles. -/
def beq [BEq K] : Object K → Object K → Bool
  | .none, .none => true
  | .bool a, .bool b => a == b
  | .float a, .float b => a == b
  | .str a, .str b => a == b
  | .array a, .array b => a.beq b
  | .tuple as, .tuple bs => beqList as bs
  | .inst a, .inst b => a.same b
  | _, _ => false
where
  beqList : List (Object K) → List (Object K) → Bool
    | [], [] => true
    | a :: as, b :: bs => a.beq b && beqList as bs
    | _, _ => false

end Object

end GradientGraph
