import GradientGraph.Graph.Assign
import GradientGraph.Host.Parameter
import GradientGraph.Program.Pass

/-!
# Bodies of host functions

Each function a module can offer: its parameters, and what it does to the
graph and the programs with arguments that fit them. Operators that need
operands of fitting shapes evaluate both first and refuse the rest.
-/

set_option autoImplicit false

namespace GradientGraph

structure World (K D : Type) where
  graph : Graph K D := {}
  programs : Array (Program D) := #[]

abbrev HostM (K D : Type) := StateT (World K D) Option

namespace World

variable {K D : Type}

def onGraph {α : Type} (m : GraphM K D α) : HostM K D α := fun w =>
  (m w.graph).map fun (x, graph) => (x, { w with graph })

def onProgram {α : Type} (id : ProgramId) (m : Program D → GraphM K D (Program D × α)) :
    HostM K D α := do
  match (← get).programs[id]? with
  | none => fun _ => none
  | some p =>
    let (p, x) ← onGraph (m p)
    modify fun w => { w with programs := w.programs.setIfInBounds id p }
    return x

end World

/-- The result of a call, and the variables kept alive by a formula that it
displaced. -/
structure Reply (K : Type) where
  object : Object K
  displaced : List NodeId := []

/-- How the operands of a binary function reach their sides. -/
inductive Operands where
  | expressions
  | literalRight
  | literalLeft
  /-- The receiver is the right operand, the argument an expression. -/
  | reflected
  /-- The receiver is the right operand, the argument a literal. -/
  | reflectedLiteral
deriving DecidableEq, Repr

inductive Body where
  | newDefault (c : Category)
  | newLiteral (c : Category)
  | newComputed (c : Category)
  | value (c : Category)
  | assignLiteral (c : Category)
  | assignExpression (c : Category)
  | setDerivative (c derivative : Category)
  | derivative (c : Category)
  | unary (k : UnaryKernel) (c : Category)
  /-- With a name to report, operands of shapes that do not fit are refused. -/
  | binary (k : BinaryKernel) (left right result : Category) (operands : Operands)
      (checkedAs : Option String)
  | newProgram
  | newBoundedProgram
  | compile
  | compiled
  | evaluate
  | pushTangent
  | pushTangentAt
  | pullGradient
  | pullGradientAt
  | programText
  /-- Reports which overload was chosen, with its converted arguments. A label
  that starts with an exclamation mark is an error. -/
  | echo (label : String) (params : List Param)
deriving DecidableEq, Repr

namespace Body

@[reducible] def params : Body → List Param
  | .newDefault _ => []
  | .newLiteral c => [.value c]
  | .newComputed c => [.expression c]
  | .value c => [.variableOf c]
  | .assignLiteral c => [.variableOf c, .value c]
  | .assignExpression c => [.variableOf c, .expression c]
  | .setDerivative c d => [.variableOf c, .value d]
  | .derivative c => [.variableOf c]
  | .unary _ c => [.expression c]
  | .binary _ l r _ .expressions _ => [.expression l, .expression r]
  | .binary _ l r _ .literalRight _ => [.expression l, .value r]
  | .binary _ l r _ .literalLeft _ => [.value l, .expression r]
  | .binary _ l r _ .reflected _ => [.expression r, .expression l]
  | .binary _ l r _ .reflectedLiteral _ => [.expression r, .value l]
  | .newProgram => [.nodes]
  | .newBoundedProgram => [.nodes, .nodes]
  | .compile | .compiled | .evaluate | .pushTangent | .pullGradient | .programText => [.program]
  | .pushTangentAt | .pullGradientAt => [.program, .node]
  | .echo _ params => params

def ranks (b : Body) : List Nat := b.params.map (·.rank)

section Run

open GradientGraph.Graph World

variable {K D : Type}

def plain (o : Object K) : Except Error (Reply K) := .ok { object := o }

/-- The formula an operand stands for. Each use of a variable is a part of
its own. -/
def formulaOf : Operand K → GraphM K D (Formula K)
  | .term a => pure a
  | .cell n => return .read (← freshLabel) n

def operation (body : Formula K) : GraphM K D (Formula K) :=
  return .share (← freshLabel) body

def literalOf (v : Value K) : GraphM K D (Formula K) :=
  return .share (← freshLabel) (.literal v)

def unitReply (r : Except Error Unit) : Except Error (Reply K) := do
  r
  plain .none

variable [Zero K] [One K] [Add K] [Mul K] [MulAdd K] [Capacity K] [NatCast K] [Calculus K]

def checkShapes (k : BinaryKernel) (name : String) (l r : Formula K) :
    GraphM K D (Except Error Unit) := do
  let x ← l.expression.evaluate
  let y ← r.expression.evaluate
  modify (Graph.forget l)
  modify (Graph.forget r)
  if k.compatible x.shape y.shape then return .ok ()
  else return .error (.shapeMismatch name x.dims y.dims)

def applyBinary (k : BinaryKernel) (result : Category) (checkedAs : Option String)
    (l r : Formula K) : GraphM K D (Except Error (Reply K)) := do
  let fits ← match checkedAs with
    | none => pure (Except.ok ())
    | some name => checkShapes k name l r
  match fits with
  | .error e => return .error e
  | .ok () => return plain (.inst (.operation result (← operation (.binary k l r))))

variable [Differential K D] [HostDerivative K D]

def reportedDerivative (n : NodeId) : GraphM K D D :=
  return (((← get).derivative? n).map (·.value)).getD Differential.empty

def addProgram (p : Except Error (Program D)) : HostM K D (Except Error (Reply K)) := do
  match p with
  | .error e => return .error e
  | .ok p =>
    let w ← get
    set { w with programs := w.programs.push p }
    return plain (.inst (.program w.programs.size))

def run : (b : Body) → Param.Carriers K b.params → HostM K D (Except Error (Reply K))
  | .newDefault c, () => onGraph do
    return plain (.inst (.var c (← newVariable (Value.default c))))
  | .newLiteral c, (v, ()) => onGraph do
    return plain (.inst (.var c (← newVariable v)))
  | .newComputed c, (x, ()) => onGraph do
    let e ← formulaOf x
    return plain (.inst (.var c (← Graph.newComputed e)))
  | .value _, (n, ()) => onGraph do
    return plain (.ofValue (← cell n).value)
  | .assignLiteral _, (n, v, ()) => onGraph do
    return .ok { object := .none, displaced := ← Graph.assignLiteral n v }
  | .assignExpression _, (n, x, ()) => onGraph do
    let e ← formulaOf x
    return .ok { object := .none, displaced := ← Graph.assignFormula n e }
  | .setDerivative _ _, (n, v, ()) => onGraph do
    giveDerivative n (← ofOption (HostDerivative.ofValue v))
    return plain .none
  | .derivative _, (n, ()) => onGraph do
    return plain (.ofValue (HostDerivative.toValue (← reportedDerivative n)))
  | .unary k c, (x, ()) => onGraph do
    let e ← formulaOf x
    return plain (.inst (.operation (k.category c) (← operation (.unary k e))))
  | .binary k _ _ result .expressions name, (x, y, ()) => onGraph do
    applyBinary k result name (← formulaOf x) (← formulaOf y)
  | .binary k _ _ result .literalRight name, (x, v, ()) => onGraph do
    applyBinary k result name (← formulaOf x) (← literalOf v)
  | .binary k _ _ result .literalLeft name, (v, y, ()) => onGraph do
    applyBinary k result name (← literalOf v) (← formulaOf y)
  | .binary k _ _ result .reflected name, (y, x, ()) => onGraph do
    applyBinary k result name (← formulaOf x) (← formulaOf y)
  | .binary k _ _ result .reflectedLiteral name, (y, v, ()) => onGraph do
    applyBinary k result name (← literalOf v) (← formulaOf y)
  | .newProgram, (targets, ()) => addProgram (Program.create targets [])
  | .newBoundedProgram, (targets, sources, ()) => addProgram (Program.create targets sources)
  | .compile, (id, ()) => onProgram id fun p => do
    let (p, r) ← look p.compile
    return (p, unitReply r)
  | .compiled, (id, ()) => onProgram id fun p =>
    return (p, plain (.bool (← look p.compiled)))
  | .evaluate, (id, ()) => onProgram id fun p => do
    let (p, r) ← p.evaluate
    return (p, unitReply r)
  | .pushTangent, (id, ()) => onProgram id fun p => do
    let (p, r) ← p.pushTangent
    return (p, unitReply r)
  | .pushTangentAt, (id, n, ()) => onProgram id fun p => do
    let (p, r) ← p.pushTangentAt n
    return (p, unitReply r)
  | .pullGradient, (id, ()) => onProgram id fun p => do
    let (p, r) ← p.pullGradient
    return (p, unitReply r)
  | .pullGradientAt, (id, n, ()) => onProgram id fun p => do
    let (p, r) ← p.pullGradientAt n
    return (p, unitReply r)
  | .programText, (id, ()) => onProgram id fun p => return (p, plain (.str p.text))
  | .echo label params, args =>
    if label.startsWith "!" then return .error (.typeError label)
    else return plain (.tuple (.str label :: Param.toObjects params args))

end Run

end Body

end GradientGraph
