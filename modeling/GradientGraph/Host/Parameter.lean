import GradientGraph.Differential
import GradientGraph.Host.Object

/-!
# Parameters of host functions

A parameter says which objects it takes and what it makes of them. Its rank
decides which of several overloads is tried first: a scalar before a vector
before a matrix. A column of a matrix reads as a vector, a vector as a
matrix of one column.
-/

set_option autoImplicit false

namespace GradientGraph

namespace Tensor

variable {K : Type} [Zero K]

/-- Takes one dimension, or two with a single column. -/
def toVector? (a : Tensor K) : Option (Value K) :=
  match a.dims with
  | [_] | [_, 1] => some (.vector a.entries)
  | _ => none

def toMatrix? (a : Tensor K) : Option (Value K) :=
  match a.dims with
  | [n] => some (.matrix n 1 fun i _ => a.entries.getD i 0)
  | [r, c] => some (.matrix r c fun i j => a.entries.getD (i * c + j) 0)
  | _ => none

end Tensor

namespace Value

variable {K : Type} [Zero K]

def toTensor (v : Value K) : Tensor K :=
  match h : v.shape with
  | .scalar => ⟨[], v.entries, by rw [v.size_entries, h]; rfl⟩
  | .vector n => ⟨[n], v.entries, by rw [v.size_entries, h]; simp [Shape.size, entryCount]⟩
  | .matrix r c =>
    ⟨[r, c], Array.ofFn fun k : Fin (r * c) => v.cell r (k / c) (k % c),
      by simp [entryCount]⟩

end Value

class HostDerivative (K : outParam Type) (D : Type) where
  category : Category
  ofValue : Value K → Option D
  toValue : D → Value K

instance scalarHostDerivative {K : Type} [Zero K] : HostDerivative K K where
  category := .scalar
  ofValue v := if v.shape = .scalar then some (v.entry 0) else none
  toValue := .scalar

instance matHostDerivative {K : Type} [Zero K] : HostDerivative K (Mat K) where
  category := .matrix
  ofValue v :=
    match v.shape with
    | .matrix r c => some (.ofFn r c (v.cell r))
    | _ => none
  toValue m := .matrix m.rows m.cols m.entry

namespace Object

variable {K : Type} [Zero K]

def ofValue (v : Value K) : Object K :=
  match v.shape with
  | .scalar => .float (v.entry 0)
  | _ => .array v.toTensor

def toValue? : Category → Object K → Option (Value K)
  | .scalar, .float x => some (.scalar x)
  | .vector, .array a => a.toVector?
  | .matrix, .array a => a.toMatrix?
  | _, _ => Option.none

end Object

inductive Operand (K : Type) where
  | cell (n : NodeId)
  | term (a : Formula K)

inductive Param where
  | any
  | bool
  /-- A literal of the category. -/
  | value (c : Category)
  /-- A tuple of items that all fit. -/
  | list (item : Param)
  /-- A variable or an operation of the category. -/
  | expression (c : Category)
  | variableOf (c : Category)
  /-- A variable of whatever category. -/
  | node
  /-- A tuple of variables, or one variable. -/
  | nodes
  | program
deriving DecidableEq, Repr

namespace Category

def rank : Category → Nat
  | .scalar => 0
  | .vector => 1
  | .matrix => 2

end Category

namespace Param

def rank : Param → Nat
  | .value c | .expression c | .variableOf c => c.rank
  | .list item => item.rank
  | _ => 0

@[reducible] def Carrier (K : Type) : Param → Type
  | .any => Object K
  | .bool => Bool
  | .value _ => Value K
  | .list item => List (item.Carrier K)
  | .expression _ => Operand K
  | .variableOf _ => NodeId
  | .node => NodeId
  | .nodes => List NodeId
  | .program => ProgramId

variable {K : Type} [Zero K]

def nodeOf? (o : Object K) : Option NodeId := o.instance?.bind (·.node?)

def convert? : (p : Param) → Object K → Option (p.Carrier K)
  | .any, o => some o
  | .bool, .bool b => some b
  | .value c, o => o.toValue? c
  | .list item, .tuple os => os.mapM item.convert?
  | .expression c, .inst (.operation k a) => if k = c then some (.term a) else none
  | .expression c, .inst (.var k n) => if k = c then some (.cell n) else none
  | .variableOf c, .inst (.var k n) => if k = c then some n else none
  | .node, o => nodeOf? o
  | .nodes, .tuple os => os.mapM nodeOf?
  | .nodes, o => (nodeOf? o).map ([·])
  | .program, .inst (.program id) => some id
  | _, _ => none

@[reducible] def Carriers (K : Type) : List Param → Type
  | [] => Unit
  | p :: ps => p.Carrier K × Carriers K ps

def convertAll? : (ps : List Param) → List (Object K) → Option (Carriers K ps)
  | [], [] => some ()
  | p :: ps, o :: os => do return (← p.convert? o, ← convertAll? ps os)
  | _, _ => none

def nodeText (n : NodeId) : Object K := .str n.text

def toObject : (p : Param) → p.Carrier K → Object K
  | .any, o => o
  | .bool, b => .bool b
  | .value _, v => .ofValue v
  | .list item, xs => .tuple (xs.map item.toObject)
  | .expression c, .term a => .inst (.operation c a)
  | .expression c, .cell n => .inst (.var c n)
  | .variableOf c, n => .inst (.var c n)
  | .node, n => nodeText n
  | .nodes, ns => .tuple (ns.map nodeText)
  | .program, id => .inst (.program id)

def toObjects : (ps : List Param) → Carriers K ps → List (Object K)
  | [], _ => []
  | p :: ps, (x, xs) => p.toObject x :: toObjects ps xs

end Param

end GradientGraph
