import GradientGraph.Graph.Owners
import GradientGraph.Host.Parameter
import GradientGraph.Number.Shortest
import GradientGraph.Session.Answer
import GradientGraph.Workbench.Step

/-!
# Running a workbench

The items stored by name are the outside owners of nodes. Unlike a session a
workbench can evaluate a wrapper or an evaluator by itself, and what is
remembered then stays until something forgets it.
-/

set_option autoImplicit false

namespace GradientGraph

structure Workbench (K D : Type) where
  graph : Graph K D := {}
  items : Table (Item K) := []
  programs : Table (Program D) := []
  notes : Table NodeId := []

namespace Workbench

variable {K D : Type}

def itemNodes (items : Table (Item K)) : List NodeId := items.flatMap (·.2.nodes)

def release (w : Workbench K D) (pending : List NodeId) : Workbench K D :=
  { w with graph := w.graph.release (itemNodes w.items) pending }

def store (w : Workbench K D) (name : String) (x : Item K) : Workbench K D :=
  let former := ((w.items.find? name).map (·.nodes)).getD []
  { w with items := w.items.put name x }.release former

def forget (w : Workbench K D) (name : String) : Workbench K D :=
  let former := ((w.items.find? name).map (·.nodes)).getD []
  { w with items := w.items.erase name, programs := w.programs.erase name }.release former

def item (w : Workbench K D) (name : String) : Except Failure (Item K) :=
  match w.items.find? name with
  | some x => .ok x
  | none => .error (.noSuchName name)

def variableNode (w : Workbench K D) (name : String) : Except Failure NodeId := do
  match (← w.item name).node? with
  | some n => return n
  | none => throw .unsupported

def placeNode (w : Workbench K D) : Place → Except Failure NodeId
  | .item name => do
    let x ← w.item name
    match x.node? with
    | some n => return n
    | none => throw (.noNode x.kind)
  | .noted name =>
    match w.notes.find? name with
    | some n => .ok n
    | none => .error (.noSuchName name)

/-- An argument as a formula, with its category. A literal is a part of its own. -/
def operand (w : Workbench K D) : Argument K →
    Except Failure (Category × GraphM K D (Formula K))
  | .literal v => .ok (v.category, do return .share (← Graph.freshLabel) (.literal v))
  | .ref name => do
    let x ← w.item name
    return (x.category, x.formula)

/-- The outcome of a step: the workbench after it and the answer, or nothing
if the step met shapes that an array operation cannot combine. -/
abbrev Outcome (K D : Type) := Option (Workbench K D × Except Failure (Answer K))

def answer (w : Workbench K D) (r : Except Failure (Answer K)) : Outcome K D := some (w, r)

def after {α : Type} (w : Workbench K D) (r : Except Failure α) (f : α → Outcome K D) :
    Outcome K D :=
  match r with
  | .ok x => f x
  | .error e => w.answer (.error e)

def onGraph {α : Type} (w : Workbench K D) (m : GraphM K D α)
    (f : Workbench K D → α → Outcome K D) : Outcome K D :=
  (m w.graph).bind fun (x, graph) => f { w with graph } x

def make (w : Workbench K D) (name : String) (m : GraphM K D (Item K)) : Outcome K D :=
  w.onGraph m fun w x => (w.store name x).answer (.ok (.text x.kind))

def change (w : Workbench K D) (m : GraphM K D Unit) : Outcome K D :=
  w.onGraph m fun w _ => w.answer (.ok .nothing)

section Steps

open GradientGraph.Graph

variable [Zero K] [One K] [Add K] [Mul K] [MulAdd K] [Capacity K] [NatCast K] [Calculus K]
  [NumberText K] [Differential K D] [HostDerivative K D]

def derivativeValue (g : Graph K D) (n : NodeId) : Value K :=
  HostDerivative.toValue (((g.derivative? n).map (·.value)).getD Differential.empty)

def variableText (n : NodeId) (c : Cell K D) : String :=
  "Variable(" ++ n.text ++ ", " ++ NumberText.text (c.value.entry 0) ++ ")"

def variableStateText (n : NodeId) (c : Cell K D) : String :=
  let number (v : Value K) : String := NumberText.text (v.entry 0)
  let derivative := match c.derivative with
    | some d => "Some(" ++ number (HostDerivative.toValue d.value) ++ ")"
    | none => "None"
  "VariableNode \x7b id: " ++ n.longText ++ ", value: " ++ number c.value ++
    ", derivative: " ++ derivative ++ ", expression: " ++ toString c.formula.isSome ++ " \x7d"

/-- Value of an item. An operation forgets what it remembered, a wrapper or
an evaluator does not. -/
def readItem : Item K → GraphM K D (Value K)
  | .var _ n => return (← cell n).value
  | .operation _ a => evaluateOnce a
  | .wrapper _ a | .evaluator _ a => a.expression.evaluate

def isRemembered (g : Graph K D) (a : Formula K) : Bool :=
  ((a.label?).bind g.remembered?).isSome

def sameItem : Item K → Item K → Bool
  | .var _ m, .var _ n => m = n
  | .var _ _, _ | _, .var _ _ => false
  | .operation _ a, y | .wrapper _ a, y | .evaluator _ a, y =>
    match y with
    | .operation _ b | .wrapper _ b | .evaluator _ b => a.label? = b.label?
    | .var _ _ => false

def runProgram (w : Workbench K D) (name : String)
    (m : GraphM K D (Program D × Except Error Unit)) : Outcome K D :=
  w.onGraph m fun w (p, r) =>
    { w with programs := w.programs.put name p }.answer
      (match r with
        | .ok () => .ok .nothing
        | .error e => .error (.refused e))

def request (w : Workbench K D) (name : String) (p : Program D) : Request → Outcome K D
  | .compile => w.runProgram name (look p.compile)
  | .evaluate => w.runProgram name p.evaluate
  | .pushTangent => w.runProgram name p.pushTangent
  | .pullGradient => w.runProgram name p.pullGradient
  | .pushTangentAt seed => w.after (w.variableNode seed) fun n =>
    w.runProgram name (p.pushTangentAt n)
  | .pullGradientAt seed => w.after (w.variableNode seed) fun n =>
    w.runProgram name (p.pullGradientAt n)
  | .compiled => w.answer (.ok (.flag (p.compiled w.graph)))
  | .error => w.answer (.ok (.ofOption .error p.error?))
  | .text => w.answer (.ok (.text p.text))
  | .order => w.answer (.ok (.ofOption .nodes (p.plan?.map (·.order))))
  | .actualSources => w.answer (.ok (.ofOption .nodes (p.plan?.map (·.sources.toList))))
  | .sets => w.answer (.ok (.sets p.sources p.targets))

def step (w : Workbench K D) : Step K D → Outcome K D
  | .newDefault c name => w.make name do return .var c (← newVariable (Value.default c))
  | .newVariable (.literal v) name => w.make name do
    return .var v.category (← newVariable v)
  | .newVariable (.ref source) name => w.after (w.item source) fun x =>
    w.make name do return .var x.category (← newComputed (← x.formula))
  | .binary f l r name => w.after (w.operand l) fun (a, l) => w.after (w.operand r) fun (b, r) =>
    match f.kernel? a b with
    | none => w.answer (.error .unsupported)
    | some k =>
      match k.category a b with
      | none => w.answer (.error .unsupported)
      | some c => w.make name do
        let x ← l
        let y ← r
        return .operation c (.share (← freshLabel) (.binary k x y))
  | .unary k x name => w.after (w.operand x) fun (c, x) =>
    if k.takes c then w.make name do
      let a ← x
      return .operation (k.category c) (.share (← freshLabel) (.unary k a))
    else w.answer (.error .unsupported)
  | .wrapper x name => w.after (w.item x) fun x =>
    w.make name do return .wrapper x.category (← x.formula)
  | .evaluator x name => w.after (w.item x) fun x => w.make name do
    let a ← x.formula
    return .evaluator x.category (.share (← freshLabel) a)
  | .expression x name => w.after (w.item x) fun x =>
    match x.node?.bind w.graph.formula? with
    | none => w.answer (.error .noExpression)
    | some a => w.make name (pure (.wrapper x.category a))
  | .kind x => w.after (w.item x) fun x => w.answer (.ok (.text x.kind))
  | .value x => w.after (w.item x) fun x =>
    w.onGraph (readItem x) fun w v => w.answer (.ok (.value v))
  | .assign x (.literal v) => w.after (w.variableNode x) fun n =>
    w.onGraph (assignLiteral n v) fun w displaced =>
      (w.release displaced).answer (.ok .nothing)
  | .assign x (.ref source) => w.after (w.item source) fun y =>
    w.after (w.variableNode x) fun n =>
      w.onGraph (do assignFormula n (← y.formula)) fun w displaced =>
        (w.release displaced).answer (.ok .nothing)
  | .derivative x => w.after (w.variableNode x) fun n =>
    w.answer (.ok (.value (derivativeValue w.graph n)))
  | .setDerivative x d => w.after (w.variableNode x) fun n => w.change (giveDerivative n d)
  | .text x => w.after (w.variableNode x) fun n =>
    w.onGraph (cell n) fun w c => w.answer (.ok (.text (variableText n c)))
  | .hasDerivative x => w.after (w.variableNode x) fun n =>
    w.answer (.ok (.flag (w.graph.derivative? n).isSome))
  | .accumulate x d => w.after (w.variableNode x) fun n => w.change (Graph.accumulate n d)
  | .clearDerivative x => w.after (w.variableNode x) fun n => w.change (Graph.clearDerivative n)
  | .stateText x => w.after (w.variableNode x) fun n =>
    w.onGraph (cell n) fun w c => w.answer (.ok (.text (variableStateText n c)))
  | .hasExpression x => w.after (w.variableNode x) fun n =>
    w.answer (.ok (.flag (w.graph.formula? n).isSome))
  | .isConstant x => w.after (w.item x) fun x =>
    w.onGraph x.formula fun w a => w.answer (.ok (.flag a.isConstant))
  | .forget x => w.after (w.item x) fun x => w.change do modify (Graph.forget (← x.formula))
  | .pushForward x => w.after (w.item x) fun x =>
    w.onGraph (do (← x.formula).expression.pushForward) fun w t =>
      w.answer (.ok (.ofOption (fun d => .value (HostDerivative.toValue d.value)) t))
  | .pullBack x d => w.after (w.item x) fun x => w.change do (← x.formula).expression.pullBack d
  | .isCached x => w.after (w.item x) fun x =>
    match x with
    | .evaluator _ e => w.answer (.ok (.flag (isRemembered w.graph e)))
    | _ => w.answer (.error .unsupported)
  | .same x y => w.after (w.item x) fun x => w.after (w.item y) fun y =>
    w.answer (.ok (.flag (sameItem x y)))
  | .node x noteAs => w.after (w.placeNode (.item x)) fun n =>
    let notes := match noteAs with
      | some name => w.notes.put name n
      | none => w.notes
    { w with notes }.answer (.ok (.text n.longText))
  | .children place => w.after (w.placeNode place) fun n =>
    match w.graph.arena.children? n with
    | some ns => w.answer (.ok (.nodes ns))
    | none => w.answer (.error (.refused .nodeNotIndexed))
  | .version place => w.after (w.placeNode place) fun n =>
    w.answer (.ok (.ofOption .version (w.graph.arena.version? n)))
  | .contains place => w.after (w.placeNode place) fun n =>
    w.answer (.ok (.flag (w.graph.arena.contains n)))
  | .live => w.answer (.ok (.count w.graph.arena.size))
  | .isEmpty => w.answer (.ok (.flag (w.graph.arena.size = 0)))
  | .dump => w.answer (.ok (.variables (w.items.filterMap fun (name, x) => do
      let n ← x.node?
      let v ← w.graph.value? n
      return (name, .ok (.ofValue v), .ok (.ofValue (derivativeValue w.graph n))))))
  | .drop name =>
    if w.items.has name ∨ w.programs.has name then (w.forget name).answer (.ok .nothing)
    else w.answer (.error (.noSuchName name))
  | .program targets sources name => w.after (targets.mapM w.variableNode) fun targets =>
    w.after (sources.mapM w.variableNode) fun sources =>
      match Program.create targets sources with
      | .error e => w.answer (.error (.refused e))
      | .ok p => { w with programs := w.programs.put name p }.answer (.ok .nothing)
  | .run name r =>
    match w.programs.find? name with
    | none => w.answer (.error (.noSuchName name))
    | some p => w.request name p r

def transcript (w : Workbench K D) : List (Step K D) → List (Entry K)
  | [] => []
  | x :: xs =>
    match w.step x with
    | none => [.fault]
    | some (w, .ok a) => .answer a :: w.transcript xs
    | some (w, .error f) => .failure f :: w.transcript xs

end Steps

end Workbench

end GradientGraph
