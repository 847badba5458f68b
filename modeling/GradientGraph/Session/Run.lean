import GradientGraph.Graph.Owners
import GradientGraph.Host.Module
import GradientGraph.Session.Answer
import GradientGraph.Session.Step

/-!
# Running a session

A session holds a module, the world its functions act on, and the objects
stored by name, which are the outside owners of nodes. After each step every
object that is not stored is gone.
-/

set_option autoImplicit false

namespace GradientGraph

structure Session (K D : Type) where
  module : Module
  world : World K D := {}
  objects : Table (Object K) := []
  notes : Table NodeId := []

namespace Session

variable {K D : Type}

mutual

def resolve (objects : Table (Object K)) : Argument K → Except Failure (Object K)
  | .none => .ok .none
  | .bool b => .ok (.bool b)
  | .float x => .ok (.float x)
  | .str s => .ok (.str s)
  | .array a => .ok (.array a)
  | .tuple items => (resolveAll objects items).map .tuple
  | .ref name =>
    match objects.find? name with
    | some o => .ok o
    | none => .error (.noSuchName name)

def resolveAll (objects : Table (Object K)) : List (Argument K) → Except Failure (List (Object K))
  | [] => .ok []
  | a :: as => do return (← resolve objects a) :: (← resolveAll objects as)

end

def objectNodes (objects : Table (Object K)) : List NodeId := objects.flatMap (·.2.nodes)

def release (s : Session K D) (others pending : List NodeId) : Session K D :=
  { s with world := { s.world with
      graph := s.world.graph.release (objectNodes s.objects ++ others) pending } }

def store (s : Session K D) (name : String) (o : Object K) : Session K D :=
  let former := ((s.objects.find? name).map (·.nodes)).getD []
  { s with objects := s.objects.put name o }.release [] former

/-- Keeps the object of a reply under a name, or lets it go. -/
def keep (s : Session K D) (storeAs : Option String) (r : Reply K) : Session K D :=
  let s := s.release r.object.nodes r.displaced
  match storeAs with
  | some name => s.store name r.object
  | none => s.release [] r.object.nodes

section Steps

variable [Zero K] [One K] [Add K] [Mul K] [MulAdd K] [Capacity K] [NatCast K] [Calculus K] [BEq K]
  [Differential K D] [HostDerivative K D]

def perform (s : Session K D) :
    Request K → Except Failure (HostM K D (Except Error (Reply K)))
  | .call name args => do
    return s.module.call name (← resolveAll s.objects args)
  | .newInstance name args => do
    return s.module.newInstance name (← resolveAll s.objects args)
  | .method o name args => do
    let o ← resolve s.objects o
    return s.module.callMethod o name (← resolveAll s.objects args)
  | .invoke o args => do
    let o ← resolve s.objects o
    return s.module.callInstance o (← resolveAll s.objects args)
  | .binary name l r => do
    let l ← resolve s.objects l
    return s.module.binaryOperator name l (← resolve s.objects r)
  | .unary name o => do
    return s.module.unaryOperator name (← resolve s.objects o)
  | .bare name => .ok do
    let id ← World.onGraph Graph.freshLabel
    return Body.plain (.inst (.bare name id))
  | .copy o => do
    let o ← resolve s.objects o
    return return Body.plain o

def placeNode (s : Session K D) : Place K → Except Failure NodeId
  | .noted name =>
    match s.notes.find? name with
    | some n => .ok n
    | none => .error (.noSuchName name)
  | .object o => do
    let o ← resolve s.objects o
    match o.instance?.bind (·.node?) with
    | some n => .ok n
    | none => .error (.noNode o.typeName)

def readVariables (m : Module) : Table (Object K) →
    HostM K D (Table (Except Error (Object K) × Except Error (Object K)))
  | [] => return []
  | (name, o) :: rest =>
    match o.instance?.bind (·.node?) with
    | none => readVariables m rest
    | some _ => do
      let value ← m.callInstance o []
      let derivative ← m.call "d" [o]
      return (name, value.map (·.object), derivative.map (·.object)) :: (← readVariables m rest)

/-- Runs one step. There is no result if the step met shapes that an array
operation cannot combine. -/
def step (s : Session K D) : Step K → Option (Session K D × Except Failure (Answer K))
  | .make request storeAs =>
    match s.perform request with
    | .error f => some (s, .error f)
    | .ok m => do
      let (r, world) ← m s.world
      let s := { s with world }
      match r with
      | .error e => return (s, .error (.refused e))
      | .ok r => return (s.keep storeAs r, .ok (.object r.object))
  | .define name label params =>
    some ({ s with module := s.module.define name (.echo label params) }, .ok .nothing)
  | .defineMethod className name label params =>
    some ({ s with module := s.module.defineMethod className name (.echo label params) },
      .ok .nothing)
  | .addClass name bases doc =>
    some ({ s with module := s.module.addClass name bases doc }, .ok .nothing)
  | .setDoc name doc => some ({ s with module := s.module.setDoc name doc }, .ok .nothing)
  | .doc name => some (s, .ok (.ofOption .text (s.module.doc? name)))
  | .moduleName => some (s, .ok (.text s.module.name))
  | .moduleText => some (s, .ok (.text s.module.text))
  | .hasFunction name => some (s, .ok (.flag (s.module.functions.has name)))
  | .hasClass name => some (s, .ok (.flag (s.module.classes.has name)))
  | .ranks name => some (s, .ok (.ranks (s.module.ranks name)))
  | .lineage className => some (s, .ok (.texts (s.module.lineage className)))
  | .isInstance o className =>
    some (s, (resolve s.objects o).map fun o => .flag (s.module.isInstance o className))
  | .typeName o => some (s, (resolve s.objects o).map fun o => .text o.typeName)
  | .text o => some (s, (resolve s.objects o).map fun o =>
      .text (match o with | .inst i => i.text | o => o.typeName))
  | .equal l r => some (s, do
      let l ← resolve s.objects l
      return .flag (l.beq (← resolve s.objects r)))
  | .drop name =>
    match s.objects.find? name with
    | none => some (s, .error (.noSuchName name))
    | some o =>
      some ({ s with objects := s.objects.erase name }.release [] o.nodes, .ok .nothing)
  | .node o noteAs =>
    match s.placeNode (.object o) with
    | .error f => some (s, .error f)
    | .ok n =>
      let notes := match noteAs with
        | some name => s.notes.put name n
        | none => s.notes
      some ({ s with notes }, .ok (.text n.longText))
  | .children place => some (s, do
      let n ← s.placeNode place
      match s.world.graph.arena.children? n with
      | some ns => return .nodes ns
      | none => throw (.refused .nodeNotIndexed))
  | .version place => some (s, (s.placeNode place).map fun n =>
      .ofOption .version (s.world.graph.arena.version? n))
  | .contains place => some (s, (s.placeNode place).map fun n =>
      .flag (s.world.graph.arena.contains n))
  | .live => some (s, .ok (.count s.world.graph.arena.size))
  | .dump => do
    let (vs, world) ← readVariables s.module s.objects s.world
    return ({ s with world }, .ok (.variables vs))

def transcript (s : Session K D) : List (Step K) → List (Entry K)
  | [] => []
  | x :: xs =>
    match s.step x with
    | none => [.fault]
    | some (s, .ok a) => .answer a :: s.transcript xs
    | some (s, .error f) => .failure f :: s.transcript xs

end Steps

end Session

end GradientGraph
