import GradientGraph.Proofs.Host.Held
import GradientGraph.Proofs.Program.Deed
import GradientGraph.Workbench.Run

/-!
# How a step of a workbench is taken

A step looks its names up, and where they stand for nothing it changes nothing. Otherwise it
asks, or computes something on the graph that makes no node, or makes an item, assigns, gives
a derivative or drops what a name stands for, or it stores, compiles or runs a program. What
holds of all steps is shown along these ways.
-/

set_option autoImplicit false

namespace GradientGraph

open GradientGraph.Graph

namespace Workbench

variable {K D α : Type}

def deedAfter (r : Except Failure α) (f : α → Deed D) : Deed D :=
  match r with
  | .ok x => f x
  | .error _ => .nothing

def requestDeed (w : Workbench K D) (f : ProgramKey) : Request → Deed D
  | .compile => .compile f
  | .evaluate => .pass f .evaluate
  | .pushTangent => .pass f .pushTangent
  | .pullGradient => .pass f .pullGradient
  | .pushTangentAt seed => deedAfter (w.variableNode seed) fun n => .pass f (.pushTangentAt n)
  | .pullGradientAt seed => deedAfter (w.variableNode seed) fun n => .pass f (.pullGradientAt n)
  | _ => .nothing

def deed (w : Workbench K D) : Step K D → Deed D
  | .assign x (.literal _) => deedAfter (w.variableNode x) .assignLiteral
  | .assign x (.ref source) => deedAfter (w.item source) fun _ =>
    deedAfter (w.variableNode x) .assignFormula
  | .setDerivative x d => deedAfter (w.variableNode x) (.giveDerivative · d)
  | .accumulate x _ => deedAfter (w.variableNode x) fun _ => .touchDerivatives
  | .clearDerivative x => deedAfter (w.variableNode x) fun _ => .touchDerivatives
  | .pullBack x _ => deedAfter (w.item x) fun _ => .touchDerivatives
  | .drop name =>
    if w.items.has name ∨ w.programs.has name then .replace (.name name) else .nothing
  | .program targets sources name => deedAfter (targets.mapM w.variableNode) fun targets =>
    deedAfter (sources.mapM w.variableNode) fun sources =>
      match (Program.create targets sources : Except Error (Program D)) with
      | .ok _ => .replace (.name name)
      | .error _ => .nothing
  | .run name r =>
    match w.programs.find? name with
    | some _ => w.requestDeed (.name name) r
    | none => .nothing
  | _ => .nothing

theorem deedAfter_nothing (r : Except Failure α) :
    deedAfter r (fun _ => (.nothing : Deed D)) = .nothing := by
  cases r <;> rfl

theorem exists_of_runProgram {w w' : Workbench K D} {name : String}
    {m : GraphM K D (Program D × Except Error Unit)} {r : Except Failure (Answer K)}
    (h : w.runProgram name m = some (w', r)) :
    ∃ q made g, m w.graph = some ((q, made), g) ∧ r.isOk = made.isOk ∧
      w' = { w with graph := g, programs := w.programs.put name q } := by
  obtain ⟨⟨⟨q, made⟩, g⟩, hrun, h⟩ := Option.bind_eq_some_iff.mp h
  cases h
  refine ⟨q, made, g, hrun, ?_, rfl⟩
  cases made <;> rfl

variable [Zero K] [One K] [Add K] [Mul K] [MulAdd K] [Capacity K] [NatCast K] [Calculus K]
  [Differential K D] {w w' : Workbench K D} {x : Step K D} {r : Except Failure (Answer K)}

inductive Inquires (w : Workbench K D) : {α : Type} → Step K D → Deed D → GraphM K D α → Prop where
  | value {name : String} {x : Item K} (hx : w.item name = .ok x) :
    Inquires w (.value name) .nothing (readItem x)
  | text (name : String) (n : NodeId) : Inquires w (.text name) .nothing (cell n)
  | stateText (name : String) (n : NodeId) : Inquires w (.stateText name) .nothing (cell n)
  | isConstant (name : String) (x : Item K) :
    Inquires w (.isConstant name) .nothing x.formula
  | forget (name : String) (x : Item K) :
    Inquires w (.forget name) .nothing (do modify (Graph.forget (← x.formula)))
  | pushForward {name : String} {x : Item K} (hx : w.item name = .ok x) :
    Inquires w (.pushForward name) .nothing (do (← x.formula).expression.pushForward)
  | pullBack {name : String} {x : Item K} (hx : w.item name = .ok x) (d : D) :
    Inquires w (.pullBack name d) .touchDerivatives (do (← x.formula).expression.pullBack d)
  | accumulate (name : String) (n : NodeId) (d : D) :
    Inquires w (.accumulate name d) .touchDerivatives (Graph.accumulate n d)
  | clearDerivative (name : String) (n : NodeId) :
    Inquires w (.clearDerivative name) .touchDerivatives (Graph.clearDerivative n)

inductive Makes (w : Workbench K D) : GraphM K D (Item K) → Prop where
  | fresh (c : Category) (v : Value K) : Makes w do return .var c (← newVariable v)
  | computed {name : String} {x : Item K} (hx : w.item name = .ok x) :
    Makes w do return .var x.category (← newComputed (← x.formula))
  | binary {l r : Argument K} {a b : Category} {x y : GraphM K D (Formula K)}
    (hl : w.operand l = .ok (a, x)) (hr : w.operand r = .ok (b, y)) (k : BinaryKernel)
    (c : Category) : Makes w do
      let x ← x
      let y ← y
      return .operation c (.share (← freshLabel) (.binary k x y))
  | unary {l : Argument K} {a : Category} {x : GraphM K D (Formula K)}
    (hl : w.operand l = .ok (a, x)) (k : UnaryKernel) (c : Category) : Makes w do
      let a ← x
      return .operation c (.share (← freshLabel) (.unary k a))
  | wrapper {name : String} {x : Item K} (hx : w.item name = .ok x) :
    Makes w do return .wrapper x.category (← x.formula)
  | evaluator {name : String} {x : Item K} (hx : w.item name = .ok x) : Makes w do
      let a ← x.formula
      return .evaluator x.category (.share (← freshLabel) a)
  | expression {n : NodeId} {a : Formula K} (ha : w.graph.formula? n = some a) (c : Category) :
    Makes w (pure (.wrapper c a))

inductive Assigns (w : Workbench K D) : Deed D → GraphM K D (List NodeId) → Prop where
  | literal {name : String} {n : NodeId} (hn : w.variableNode name = .ok n) (v : Value K) :
    Assigns w (.assignLiteral n) (assignLiteral n v)
  | formula {name source : String} {n : NodeId} {y : Item K} (hn : w.variableNode name = .ok n)
    (hy : w.item source = .ok y) :
    Assigns w (.assignFormula n) (do Graph.assignFormula n (← y.formula))

inductive Steps (w : Workbench K D) (x : Step K D) :
    Except Failure (Answer K) → Workbench K D → Prop where
  | asked (hdeed : w.deed x = .nothing) (r : Except Failure (Answer K)) : Steps w x r w
  | noted (hdeed : w.deed x = .nothing) (a : Answer K) (notes : Table NodeId) :
    Steps w x (.ok a) { w with notes }
  | inquired {α : Type} {m : GraphM K D α} (hm : w.Inquires x (w.deed x) m) {y : α}
    {g : Graph K D} (hrun : m w.graph = some (y, g)) (a : Answer K) :
    Steps w x (.ok a) { w with graph := g }
  | made (hdeed : w.deed x = .nothing) {m : GraphM K D (Item K)} (hm : w.Makes m) {y : Item K}
    {g : Graph K D} (hrun : m w.graph = some (y, g)) (name : String) (a : Answer K) :
    Steps w x (.ok a) ({ w with graph := g }.store name y)
  | assigned {m : GraphM K D (List NodeId)} (hm : w.Assigns (w.deed x) m)
    {displaced : List NodeId} {g : Graph K D} (hrun : m w.graph = some (displaced, g))
    (a : Answer K) : Steps w x (.ok a) ({ w with graph := g }.release displaced)
  | given {name : String} {n : NodeId} (hn : w.variableNode name = .ok n) {d : D}
    (hdeed : w.deed x = .giveDerivative n d) {u : Unit} {g : Graph K D}
    (hrun : giveDerivative n d w.graph = some (u, g)) (a : Answer K) :
    Steps w x (.ok a) { w with graph := g }
  | dropped {name : String} (hdeed : w.deed x = .replace (.name name)) (a : Answer K) :
    Steps w x (.ok a) (w.forget name)
  | stored {name : String} (hdeed : w.deed x = .replace (.name name)) {ts ss : List NodeId}
    {p : Program D} (hp : Program.create ts ss = .ok p) (a : Answer K) :
    Steps w x (.ok a) { w with programs := w.programs.put name p }
  | compiled {name : String} {p : Program D} (hp : w.programs.find? name = some p)
    (hdeed : w.deed x = .compile (.name name)) {r : Except Failure (Answer K)}
    (hr : r.isOk = (p.compile w.graph).2.isOk) :
    Steps w x r { w with programs := w.programs.put name (p.compile w.graph).1 }
  | passed {name : String} {p q : Program D} (hp : w.programs.find? name = some p) {y : Pass}
    (hdeed : w.deed x = .pass (.name name) y) {made : Except Error Unit} {g : Graph K D}
    (hrun : y.run p w.graph = some ((q, made), g)) {r : Except Failure (Answer K)}
    (hr : r.isOk = made.isOk) :
    Steps w x r { w with graph := g, programs := w.programs.put name q }

/-- Whether the step is taken in one of the ways, if it has the outcome. -/
def Taken (w : Workbench K D) (x : Step K D) (o : Outcome K D) : Prop :=
  ∀ (w' : Workbench K D) (r : Except Failure (Answer K)), o = some (w', r) → w.Steps x r w'

section Ways

theorem taken_answer (hdeed : w.deed x = .nothing) (r : Except Failure (Answer K)) :
    w.Taken x (w.answer r) := by
  intro w' r' h
  cases h
  exact .asked hdeed r

theorem taken_after {r : Except Failure α} {k : α → Deed D} {f : α → Outcome K D}
    (hdeed : w.deed x = deedAfter r k)
    (hf : ∀ y, r = .ok y → w.deed x = k y → w.Taken x (f y)) : w.Taken x (w.after r f) := by
  cases r with
  | error e => exact taken_answer hdeed _
  | ok y => exact hf y rfl hdeed

theorem taken_reading (hdeed : w.deed x = .nothing) {r : Except Failure α} {f : α → Outcome K D}
    (hf : ∀ y, r = .ok y → w.Taken x (f y)) : w.Taken x (w.after r f) :=
  taken_after (hdeed.trans (deedAfter_nothing r).symm) fun y hy _ => hf y hy

theorem taken_inquiry {deed : Deed D} (hdeed : w.deed x = deed) {m : GraphM K D α}
    (hm : w.Inquires x deed m) {f : Workbench K D → α → Answer K} :
    w.Taken x (w.onGraph m fun w y => w.answer (.ok (f w y))) := by
  intro w' r h
  obtain ⟨⟨y, g⟩, hrun, h⟩ := Option.bind_eq_some_iff.mp h
  cases h
  exact .inquired (hdeed ▸ hm) hrun _

theorem taken_make (hdeed : w.deed x = .nothing) {m : GraphM K D (Item K)} (hm : w.Makes m)
    (name : String) : w.Taken x (w.make name m) := by
  intro w' r h
  obtain ⟨⟨y, g⟩, hrun, h⟩ := Option.bind_eq_some_iff.mp h
  cases h
  exact .made hdeed hm hrun name _

theorem taken_assign {deed : Deed D} (hdeed : w.deed x = deed) {m : GraphM K D (List NodeId)}
    (hm : w.Assigns deed m) {a : Answer K} :
    w.Taken x (w.onGraph m fun w displaced => (w.release displaced).answer (.ok a)) := by
  intro w' r h
  obtain ⟨⟨displaced, g⟩, hrun, h⟩ := Option.bind_eq_some_iff.mp h
  cases h
  exact .assigned (hdeed ▸ hm) hrun a

theorem taken_pass {name : String} {p : Program D} (hp : w.programs.find? name = some p)
    {y : Pass} (hdeed : w.deed x = .pass (.name name) y) :
    w.Taken x (w.runProgram name (y.run p)) := by
  intro w' r h
  obtain ⟨q, made, g, hrun, hr, rfl⟩ := exists_of_runProgram h
  exact .passed hp hdeed hrun hr

theorem taken_compile {name : String} {p : Program D} (hp : w.programs.find? name = some p)
    (hdeed : w.deed x = .compile (.name name)) :
    w.Taken x (w.runProgram name (look p.compile)) := by
  intro w' r h
  obtain ⟨q, made, g, hrun, hr, rfl⟩ := exists_of_runProgram h
  obtain ⟨hcompile, rfl⟩ := Prod.mk.inj (Option.some.inj hrun)
  obtain ⟨rfl, rfl⟩ := Prod.mk.inj hcompile
  exact .compiled hp hdeed hr

theorem taken_request {name : String} {p : Program D} (hp : w.programs.find? name = some p)
    {y : Request} (hdeed : w.deed x = w.requestDeed (.name name) y) :
    w.Taken x (w.request name p y) := by
  cases y with
  | compile => exact taken_compile hp hdeed
  | evaluate => exact taken_pass (y := .evaluate) hp hdeed
  | pushTangent => exact taken_pass (y := .pushTangent) hp hdeed
  | pullGradient => exact taken_pass (y := .pullGradient) hp hdeed
  | pushTangentAt seed =>
    exact taken_after hdeed fun n _ hdeed => taken_pass (y := .pushTangentAt n) hp hdeed
  | pullGradientAt seed =>
    exact taken_after hdeed fun n _ hdeed => taken_pass (y := .pullGradientAt n) hp hdeed
  | _ => exact taken_answer hdeed _

end Ways

variable [NumberText K] [HostDerivative K D]

theorem taken_binary (f : BinaryFunction) (l r : Argument K) (name : String) :
    w.Taken (.binary f l r name) (w.step (.binary f l r name : Step K D)) := by
  refine taken_reading rfl fun (a, x) hl => taken_reading rfl fun (b, y) hr => ?_
  dsimp only
  split
  · exact taken_answer rfl _
  · rename_i k _
    split
    · exact taken_answer rfl _
    · rename_i c _
      exact taken_make rfl (.binary hl hr k c) name

theorem taken_setDerivative (name : String) (d : D) :
    w.Taken (.setDerivative name d) (w.step (.setDerivative name d : Step K D)) := by
  refine taken_after rfl fun n hn hdeed => ?_
  intro w' r h
  unfold change onGraph at h
  obtain ⟨⟨u, g⟩, hrun, h⟩ := Option.bind_eq_some_iff.mp h
  cases h
  exact .given hn hdeed hrun _

theorem taken_drop (name : String) :
    w.Taken (.drop name) (w.step (.drop name : Step K D)) := by
  by_cases hname : w.items.has name ∨ w.programs.has name
  · have hdeed : w.deed (.drop name : Step K D) = .replace (.name name) := if_pos hname
    intro w' r h
    rw [step, if_pos hname] at h
    cases h
    exact .dropped hdeed _
  · have hdeed : w.deed (.drop name : Step K D) = .nothing := if_neg hname
    rw [step, if_neg hname]
    exact taken_answer hdeed _

theorem taken_program (targets sources : List String) (name : String) :
    w.Taken (.program targets sources name)
      (w.step (.program targets sources name : Step K D)) := by
  refine taken_after rfl fun targets _ hdeed => taken_after hdeed fun sources _ hdeed => ?_
  cases hp : (Program.create targets sources : Except Error (Program D)) with
  | error e =>
    rw [hp] at hdeed
    exact taken_answer hdeed _
  | ok p =>
    rw [hp] at hdeed
    intro w' r h
    cases h
    exact .stored hdeed hp _

theorem taken_run (name : String) (y : Request) :
    w.Taken (.run name y) (w.step (.run name y : Step K D)) := by
  simp only [step]
  cases hp : w.programs.find? name with
  | none => exact taken_answer (by simp only [deed, hp]) _
  | some p => exact taken_request hp (by simp only [deed, hp])

theorem steps (h : w.step x = some (w', r)) : w.Steps x r w' := by
  suffices hx : w.Taken x (w.step x) from hx w' r h
  cases x with
  | newDefault c name => exact taken_make rfl (.fresh c _) name
  | newVariable init name =>
    cases init with
    | literal v => exact taken_make rfl (.fresh v.category v) name
    | ref source => exact taken_reading rfl fun x hx => taken_make rfl (.computed hx) name
  | binary f l r name => exact taken_binary f l r name
  | unary k x name =>
    refine taken_reading rfl fun (a, y) hx => ?_
    dsimp only
    split
    · exact taken_make rfl (.unary hx k _) name
    · exact taken_answer rfl _
  | wrapper x name => exact taken_reading rfl fun x hx => taken_make rfl (.wrapper hx) name
  | evaluator x name => exact taken_reading rfl fun x hx => taken_make rfl (.evaluator hx) name
  | expression x name =>
    refine taken_reading rfl fun x _ => ?_
    split
    · exact taken_answer rfl _
    · rename_i a ha
      obtain ⟨n, -, ha⟩ := Option.bind_eq_some_iff.mp ha
      exact taken_make rfl (.expression ha _) name
  | value x => exact taken_reading rfl fun x hx => taken_inquiry rfl (.value hx)
  | assign x init =>
    cases init with
    | literal v =>
      exact taken_after rfl fun n hn hdeed => taken_assign hdeed (.literal hn v)
    | ref source =>
      exact taken_after rfl fun y hy hdeed => taken_after hdeed fun n hn hdeed =>
        taken_assign hdeed (.formula hn hy)
  | setDerivative x d => exact taken_setDerivative x d
  | text x => exact taken_reading rfl fun n _ => taken_inquiry rfl (.text x n)
  | accumulate x d =>
    exact taken_after rfl fun n _ hdeed => taken_inquiry hdeed (.accumulate x n d)
  | clearDerivative x =>
    exact taken_after rfl fun n _ hdeed => taken_inquiry hdeed (.clearDerivative x n)
  | stateText x => exact taken_reading rfl fun n _ => taken_inquiry rfl (.stateText x n)
  | isConstant x => exact taken_reading rfl fun y _ => taken_inquiry rfl (.isConstant x y)
  | forget x => exact taken_reading rfl fun y _ => taken_inquiry rfl (.forget x y)
  | pushForward x => exact taken_reading rfl fun y hy => taken_inquiry rfl (.pushForward hy)
  | pullBack x d => exact taken_after rfl fun y hy hdeed => taken_inquiry hdeed (.pullBack hy d)
  | isCached x =>
    refine taken_reading rfl fun x _ => ?_
    split <;> exact taken_answer rfl _
  | same x y => exact taken_reading rfl fun _ _ => taken_reading rfl fun _ _ => taken_answer rfl _
  | node x noteAs =>
    refine taken_reading rfl fun n _ => ?_
    intro w' r h
    cases h
    exact .noted rfl _ _
  | children place =>
    refine taken_reading rfl fun n _ => ?_
    split <;> exact taken_answer rfl _
  | drop name => exact taken_drop name
  | program targets sources name => exact taken_program targets sources name
  | run name y => exact taken_run name y
  | live => exact taken_answer rfl _
  | isEmpty => exact taken_answer rfl _
  | dump => exact taken_answer rfl _
  | _ => exact taken_reading rfl fun _ _ => taken_answer rfl _

end Workbench

end GradientGraph
