import GradientGraph.Graph.Assign
import GradientGraph.Program.Pass

/-!
# Items of a workbench

A workbench addresses the graph directly. Its items are variables, pending
operations, wrappers around a formula, and evaluators, which are shared
parts held by themselves. The category of an item never changes.
-/

set_option autoImplicit false

namespace GradientGraph

inductive Item (K : Type) where
  | var (category : Category) (node : NodeId)
  | operation (category : Category) (formula : Formula K)
  | wrapper (category : Category) (formula : Formula K)
  | evaluator (category : Category) (formula : Formula K)

namespace Item

variable {K : Type}

def kind : Item K → String
  | .var _ _ => "variable"
  | .operation _ _ => "operation"
  | .wrapper _ _ => "wrapper"
  | .evaluator _ _ => "evaluator"

def category : Item K → Category
  | .var c _ | .operation c _ | .wrapper c _ | .evaluator c _ => c

def nodes : Item K → List NodeId
  | .var _ n => [n]
  | .operation _ a | .wrapper _ a | .evaluator _ a => a.nodes

def node? : Item K → Option NodeId
  | .var _ n => some n
  | _ => none

/-- The item as a formula. A variable is read under a new label each time;
the others hand out the formula they hold. -/
def formula {D : Type} : Item K → GraphM K D (Formula K)
  | .var _ n => return .read (← Graph.freshLabel) n
  | .operation _ a | .wrapper _ a | .evaluator _ a => pure a

end Item

inductive BinaryFunction where
  | operator (op : BinOp)
  | dot
  | outer
  | matmul
deriving DecidableEq, Repr

namespace BinaryFunction

/-- The kernel for operands of the categories. An operator works element by
element within a category, and repeats a scalar beside an array. A scalar is
not raised to an array. -/
def kernel? (f : BinaryFunction) (l r : Category) : Option BinaryKernel :=
  match f with
  | .operator op =>
    if l = r then some (.cwise op)
    else if r = .scalar then some (.broadcast op)
    else if l = .scalar ∧ op ≠ .pow then some (.broadcastLeft op)
    else none
  | .dot => some .dot
  | .outer => some .outer
  | .matmul => some .matmul

end BinaryFunction

def UnaryKernel.takes : UnaryKernel → Category → Bool
  | .map _, _ => true
  | _, c => c ≠ .scalar

end GradientGraph
