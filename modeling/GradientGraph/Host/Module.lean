import GradientGraph.Host.Overload
import GradientGraph.Host.Table
import GradientGraph.Text.Quoted

/-!
# Modules

A named collection of host functions and classes. A method is looked up in
the class of its receiver and then in the base classes, depth first, and the
first class that has the name decides. Operators are methods with set names:
the left operand is asked first, then the right one by the reflected name.
-/

set_option autoImplicit false

namespace GradientGraph

structure ClassInfo where
  bases : List String := []
  doc : String := ""
  methods : Table OverloadSet := []

structure Module where
  name : String
  doc : String
  functions : Table OverloadSet := []
  classes : Table ClassInfo := []
  docs : Table String := []

namespace Module

def addOverload (b : Body) (s : Option OverloadSet) : OverloadSet := (s.getD {}).insert b

def define (m : Module) (name : String) (b : Body) : Module :=
  { m with functions := Table.alter name (addOverload b) m.functions }

def addClass (m : Module) (name : String) (bases : List String) (doc : String) : Module :=
  { m with classes := Table.alter name (·.getD { bases, doc }) m.classes }

/-- Adds an overload to a method. The receiver is the first parameter. The
class is made if it does not exist. -/
def defineMethod (m : Module) (className name : String) (b : Body) : Module :=
  let change (c : Option ClassInfo) : ClassInfo :=
    let c := c.getD {}
    { c with methods := Table.alter name (addOverload b) c.methods }
  { m with classes := Table.alter className change m.classes }

def setDoc (m : Module) (name doc : String) : Module := { m with docs := m.docs.put name doc }

/-- The text on the module, which has the empty name, on a class, or on a
function or a method. -/
def doc? (m : Module) (name : String) : Option String :=
  if name = "" then some m.doc
  else match m.classes.find? name with
    | some c => some c.doc
    | none => m.docs.find? name

def ranks (m : Module) (name : String) : List (List Nat) :=
  ((m.functions.find? name).map (·.ranks)).getD []

def bases (m : Module) (className : String) : List String :=
  ((m.classes.find? className).map (·.bases)).getD []

/-- Visits the classes `pending` and their bases, depth first, beyond those
that were seen, which are listed latest first. -/
def linearize (m : Module) (seen pending : List String) : List String :=
  match pending with
  | [] => seen.reverse
  | c :: rest =>
    if c ∈ seen then linearize m seen rest
    else linearize m (c :: seen) (m.bases c ++ rest)
termination_by ((m.classes.filter (·.1 ∉ seen)).length, pending.length)
decreasing_by
  · exact Prod.Lex.right _ (Nat.lt_succ_self _)
  · rename_i hc
    have hsub : m.classes.filter (·.1 ∉ c :: seen) =
        (m.classes.filter (·.1 ∉ seen)).filter (·.1 ≠ c) := by
      simp [List.filter_filter]
    cases hf : m.classes.find? c with
    | none =>
      have hle : (m.classes.filter (·.1 ∉ c :: seen)).length ≤
          (m.classes.filter (·.1 ∉ seen)).length := by
        rw [hsub]
        exact List.length_filter_le _ _
      have hb : m.bases c = [] := by simp [bases, hf]
      rw [hb]
      rcases Nat.lt_or_eq_of_le hle with h | h
      · exact Prod.Lex.left _ _ h
      · rw [h]
        exact Prod.Lex.right _ (Nat.lt_succ_self _)
    | some info =>
      refine Prod.Lex.left _ _ ?_
      rw [hsub, List.length_filter_lt_length_iff_exists]
      exact ⟨_, List.mem_filter.mpr ⟨Table.mem_of_find? hf, by simpa using hc⟩, by simp⟩

def lineage (m : Module) (className : String) : List String := m.linearize [] [className]

def text (m : Module) : String :=
  let list (names : List String) : String :=
    listText ((names.mergeSort (fun a b => decide (a ≤ b))).map quoted)
  "Module \x7b name: " ++ quoted m.name ++ ", functions: " ++ list m.functions.names ++
    ", classes: " ++ list m.classes.names ++ " \x7d"

section Calls

variable {K D : Type}

def isInstance (m : Module) (o : Object K) (className : String) : Bool :=
  match o with
  | .inst i => className ∈ m.lineage i.className
  | _ => false

def method? (m : Module) (className name : String) : Option OverloadSet :=
  (m.lineage className).findSome? fun c => (m.classes.find? c).bind (·.methods.find? name)

def missing (name : String) : HostM K D (Except Error (Reply K)) :=
  return .error (.noMatchingOverload name)

variable [Zero K]

def selectFunction? (m : Module) (name : String) (args : List (Object K)) : Option (Call K) :=
  (m.functions.find? name).bind (·.select? args)

def selectMethod? (m : Module) (receiver : Object K) (name : String)
    (args : List (Object K)) : Option (Call K) := do
  let i ← receiver.instance?
  (← m.method? i.className name).select? (receiver :: args)

variable [One K] [Add K] [Mul K] [MulAdd K] [Capacity K] [NatCast K] [Calculus K] [Differential K D]
  [HostDerivative K D]

def call (m : Module) (name : String) (args : List (Object K)) :
    HostM K D (Except Error (Reply K)) :=
  match m.selectFunction? name args with
  | some c => c.run
  | none => missing name

def newInstance (m : Module) (className : String) (args : List (Object K)) :
    HostM K D (Except Error (Reply K)) :=
  if m.classes.has className then m.call className args
  else return .error (.typeError ("unknown class '" ++ className ++ "'"))

def callMethod (m : Module) (receiver : Object K) (name : String) (args : List (Object K)) :
    HostM K D (Except Error (Reply K)) :=
  match receiver with
  | .inst i =>
    match m.selectMethod? receiver name args with
    | some c => c.run
    | none => missing (i.className ++ "." ++ name)
  | o => return .error (.typeError ("'" ++ o.typeName ++ "' object has no attribute '" ++
      name ++ "'"))

def callInstance (m : Module) (receiver : Object K) (args : List (Object K)) :
    HostM K D (Except Error (Reply K)) := m.callMethod receiver "__call__" args

def forwardName (name : String) : String := "__" ++ name ++ "__"

def reflectedName (name : String) : String := "__r" ++ name ++ "__"

def binaryOperator (m : Module) (name : String) (left right : Object K) :
    HostM K D (Except Error (Reply K)) :=
  match m.selectMethod? left (forwardName name) [right] with
  | some c => c.run
  | none =>
    match m.selectMethod? right (reflectedName name) [left] with
    | some c => c.run
    | none => missing (forwardName name)

def unaryOperator (m : Module) (name : String) (operand : Object K) :
    HostM K D (Except Error (Reply K)) := m.callMethod operand (forwardName name) []

end Calls

end Module

end GradientGraph
