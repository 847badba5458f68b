import GradientGraph.Proofs.Host.Lineage
import GradientGraph.Proofs.Program.Recycling
import GradientGraph.Proofs.Session.Fit

/-!
# Places that are filled again in a session

A session of the module of arrays does what the workbench does whose places are filled again:
a function is compiled for a copy of one vector, and in the end the node of the copy reads
another one. No variable is ever set.
-/

set_option autoImplicit false

namespace GradientGraph

open GradientGraph.Graph

namespace Session

section Steps

variable {K D : Type} {s : Session K D}

theorem keep_new {name : String} (o : Object K) (h : s.objects.find? name = none) :
    s.keep (some name) { object := o } = { s with objects := s.objects.put name o } := by
  simp only [keep, store, release, h, Graph.release_nil, Option.map_none, Option.getD_none]

theorem selectMethod_own [Zero K] {m : Module} {name : String} {i : Instance K}
    {os : List (Object K)} {bodies : List Body} {c : Call K}
    (hbodies : (m.overloadSet? (.method i.className name)).map (·.bodies) = some bodies)
    (hc : bodies.findSome? (·.call? (.inst i :: os)) = some c) :
    m.selectMethod? (.inst i) name os = some c := by
  obtain ⟨set, hset, rfl⟩ := Option.map_eq_some_iff.mp hbodies
  obtain ⟨others, hlineage⟩ := m.lineage_eq_cons i.className
  have hfirst := m.selectMethod_first i name
    (show m.lineage i.className = [] ++ i.className :: others from hlineage) nofun hset os
  exact hfirst.trans hc

theorem call?_method [Zero K] {receiver : Argument K} {name : String} {args : List (Argument K)}
    {i : Instance K} {os : List (Object K)} {bodies : List Body} {c : Call K}
    (hreceiver : resolve s.objects receiver = .ok (.inst i))
    (hargs : resolveAll s.objects args = .ok os)
    (hbodies : (s.module.overloadSet? (.method i.className name)).map (·.bodies) = some bodies)
    (hc : bodies.findSome? (·.call? (.inst i :: os)) = some c) :
    s.call? (.method receiver name args) = some c := by
  simp only [call?, hreceiver, hargs]
  exact selectMethod_own hbodies hc

theorem keep_none : s.keep none { object := .none } = s := by
  simp only [keep, release, Object.nodes, Graph.release_nil]

theorem onGraph_of_run {α : Type} {w : World K D} {m : GraphM K D α} {x : α} {g : Graph K D}
    (h : m w.graph = some (x, g)) : World.onGraph m w = some (x, { w with graph := g }) := by
  rw [World.onGraph, h]
  rfl

theorem run_compile [Zero K] [One K] [Add K] [Mul K] [MulAdd K] [Capacity K] [NatCast K]
    [Calculus K] [Differential K D] [HostDerivative K D] {w : World K D} {id : ProgramId}
    {p q : Program D} (hp : w.programs[id]? = some p) (h : p.compile w.graph = (q, .ok ())) :
    (⟨.compile, (id, ())⟩ : Call K).run w =
      some (.ok { object := .none }, { w with programs := w.programs.setIfInBounds id q }) := by
  have hlook : (look p.compile : GraphM K D _) w.graph = some ((q, .ok ()), w.graph) := by
    rw [← h]
    exact run_look p.compile w.graph
  change World.onProgram id _ w = _
  rw [onProgram_run hp, run_bind, hlook]
  rfl

end Steps

section Calls

variable {K : Type} [Zero K] [One K] [Add K] [Mul K] [MulAdd K] [Capacity K] [NatCast K]
  [Calculus K] [BEq K] {s : Session K (Mat K)}

theorem Steady.call (hs : s.Steady) {request : Request K} {c : Call K}
    (hc : s.call? request = some c) (hkeeps : c.body.Keeps s.world.graph c.args) {r : Reply K}
    {w : World K (Mat K)} (hrun : c.run s.world = some (.ok r, w)) (storeAs : Option String) :
    (({ s with world := w } : Session K (Mat K)).keep storeAs r).Steady := by
  have hkeep : s.Keeps (.make request storeAs) := by
    intro c' hc'
    cases hc.symm.trans hc'
    exact hkeeps
  have hstep : s.step (.make request storeAs) =
      some (({ s with world := w } : Session K (Mat K)).keep storeAs r,
        .ok (.object r.object)) := by
    rw [Session.step, (perform_of_call hc).1]
    simp only [hrun]
    rfl
  exact hs.step _ hkeep hstep

theorem Steady.call_new (hs : s.Steady) (request : Request K) (name : String) (c : Call K)
    (o : Object K) (w : World K (Mat K)) (hc : s.call? request = some c)
    (hkeeps : c.body.Keeps s.world.graph c.args)
    (hrun : c.run s.world = some (.ok { object := o }, w)) (hname : s.objects.find? name = none) :
    ({ s with world := w, objects := s.objects.put name o } : Session K (Mat K)).Steady := by
  have h := hs.call hc hkeeps hrun (some name)
  rwa [keep_new (s := { s with world := w }) o hname] at h

theorem Steady.call_none (hs : s.Steady) (request : Request K) (c : Call K) (w : World K (Mat K))
    (hc : s.call? request = some c) (hkeeps : c.body.Keeps s.world.graph c.args)
    (hrun : c.run s.world = some (.ok { object := .none }, w)) :
    ({ s with world := w } : Session K (Mat K)).Steady := by
  have h := hs.call hc hkeeps hrun none
  rwa [keep_none] at h

end Calls

end Session

namespace Recycling

open Twice (source target)

variable {K : Type}

def tensor (xs : Array K) : Tensor K := ⟨[xs.size], xs, by simp [entryCount]⟩

def session (graph : Graph K (Mat K)) (objects : Table (Object K)) : Session K (Mat K) where
  module := arrayModule
  world := { graph, programs := #[{ Twice.program with state := .compiled Twice.plan }] }
  objects

def vector (n : NodeId) : Object K := .inst (.var .vector n)

def kept : Table (Object K) :=
  [("x", vector source), ("f", .inst (.program 0)), ("z", vector other)]

theorem compile_offered :
    (arrayModule.overloadSet? (.method "Function" "compile")).map (·.bodies) = some [.compile] := by
  decide +kernel

theorem setDerivative_offered :
    (arrayModule.overloadSet? (.method "VectorVariable" "set_derivative")).map (·.bodies) =
      some [.setDerivative .vector .matrix] := by
  decide +kernel

theorem pushTangentAt_offered :
    (arrayModule.overloadSet? (.method "Function" "push_tangent_at")).map (·.bodies) =
      some [.pushTangentAt] := by
  decide +kernel

theorem middle_not_kept (generation : UInt32) :
    (⟨1, generation⟩ : NodeId) ∉ Session.objectNodes (kept : Table (Object K)) := by
  simp [Session.objectNodes, kept, vector, Object.nodes, Instance.nodes, source, other]

variable (x z : Array K)

theorem release_session {generation : UInt32} {y : Node (Cell K (Mat K))} {label inserted : Nat}
    {objects : Table (Object K)}
    (hheld : (⟨1, generation⟩ : NodeId) ∉ Session.objectNodes objects)
    (hreads : ∀ n ∈ y.content.nodes, n ∈ Session.objectNodes objects) :
    (session { arena := arena (.vector x) (.vector z) ⟨generation, some y⟩ [] inserted
               nextLabel := label } objects).release [] [⟨1, generation⟩] =
      session { arena := arena (.vector x) (.vector z) ⟨generation, none⟩ [1] inserted
                nextLabel := label } objects := by
  simp only [Session.release, session, List.append_nil, release_middle _ _ hheld hreads]

variable [Zero K] [One K] [Add K] [Mul K] [MulAdd K] [Capacity K] [NatCast K] [Calculus K] [BEq K]

theorem steady_copied : (session (copied (.vector x) []).graph
    [("x", vector source), ("y", vector target), ("f", .inst (.program 0))]).Steady := by
  let g : Graph K (Mat K) := (copied (.vector x) [] : Workbench K (Mat K)).graph
  let made (objects : Table (Object K)) (programs : Array (Program (Mat K))) :
      Session K (Mat K) := { module := arrayModule, world := { graph := g, programs }, objects }
  have hx : ({ module := arrayModule
               world := { graph := (literal (.vector x)).graph }
               objects := [("x", vector source)] } : Session K (Mat K)).Steady :=
    Session.Steady.start.call_new (.call "var" [.array (tensor x)]) "x"
      ⟨.newLiteral .vector, (.vector x, ())⟩ (vector source) _ rfl trivial rfl rfl
  have hy : (made [("x", vector source), ("y", vector target)] #[]).Steady :=
    hx.call_new (.call "var" [.ref "x"]) "y" ⟨.newComputed .vector, (.cell source, ())⟩
      (vector target) { graph := g } rfl trivial rfl rfl
  have hf : (made [("x", vector source), ("y", vector target), ("f", .inst (.program 0))]
      #[Twice.program]).Steady :=
    hy.call_new (.call "Function" [.ref "y"]) "f" ⟨.newProgram, ([target], ())⟩
      (.inst (.program 0)) _ rfl trivial rfl rfl
  exact hf.call_none (.method (.ref "f") "compile" []) ⟨.compile, (0, ())⟩ _
    (Session.call?_method rfl rfl compile_offered rfl) trivial
    (Session.run_compile rfl (compile_copied _ []))

theorem steady_vacated :
    (session (vacated (.vector x) (.vector z) 0 3).graph kept : Session K (Mat K)).Steady := by
  let objects : Table (Object K) := [("x", vector source), ("y", vector target),
    ("f", .inst (.program 0)), ("z", vector other)]
  let full : Session K (Mat K) := session
    { arena := arena (.vector x) (.vector z) ⟨0, some (copy 0 source (.vector x))⟩ [] 3
      nextLabel := 1 } objects
  have hfull : full.Steady :=
    (steady_copied x).call_new (.call "var" [.array (tensor z)]) "z"
      ⟨.newLiteral .vector, (.vector z, ())⟩ (vector other) full.world rfl trivial rfl rfl
  have hdrop : full.step (.drop "y") = some (session (vacated (.vector x) (.vector z) 0 3).graph
      kept, .ok .nothing) := by
    have hreads : ∀ n ∈ (copy 0 source (.vector x) : Node (Cell K (Mat K))).content.nodes,
        n ∈ Session.objectNodes (kept : Table (Object K)) := by
      intro n hn
      obtain rfl := List.mem_singleton.mp hn
      exact List.mem_cons_self ..
    exact congrArg (fun s => some (s, (Except.ok .nothing : Except Failure (Answer K))))
      (release_session x z (middle_not_kept 0) hreads)
  exact hfull.step (.drop "y") trivial hdrop

theorem steady_round {generation : UInt32} {inserted : Nat}
    (h : (session (vacated (.vector x) (.vector z) generation inserted).graph kept :
      Session K (Mat K)).Steady) :
    (session (vacated (.vector x) (.vector z) (generation + 1) (inserted + 1)).graph kept :
      Session K (Mat K)).Steady := by
  let full : Session K (Mat K) :=
    session (filled (.vector x) (.vector z) (generation + 1) (inserted + 1)).graph
      (kept ++ [("t", vector ⟨1, generation + 1⟩)])
  have hfull : full.Steady :=
    h.call_new (.call "var" [.array (tensor x)]) "t" ⟨.newLiteral .vector, (.vector x, ())⟩
      (vector ⟨1, generation + 1⟩) full.world rfl trivial rfl rfl
  have hdrop : full.step (.drop "t") =
      some (session (vacated (.vector x) (.vector z) (generation + 1) (inserted + 1)).graph kept,
        .ok .nothing) :=
    congrArg (fun s => some (s, (Except.ok .nothing : Except Failure (Answer K))))
      (release_session x z (middle_not_kept _) fun n hn => absurd hn List.not_mem_nil)
  exact hfull.step (.drop "t") trivial hdrop

/-- A copy of the third variable comes into the place. -/
theorem steady_renewal {generation : UInt32} {inserted : Nat}
    (h : (session (vacated (.vector x) (.vector z) generation inserted).graph kept :
      Session K (Mat K)).Steady) :
    (session (renewed (.vector x) (.vector z) (generation + 1) (inserted + 1)).graph
      (kept ++ [("y", vector ⟨1, generation + 1⟩)]) : Session K (Mat K)).Steady := by
  let w : World K (Mat K) :=
    (session (vacated (.vector x) (.vector z) generation inserted).graph kept).world
  let g : Graph K (Mat K) :=
    (renewed (.vector x) (.vector z) (generation + 1) (inserted + 1) : Workbench K (Mat K)).graph
  have hread : (Body.formulaOf (.cell other) : GraphM K (Mat K) (Formula K)) w.graph =
      some (.read 1 other, { w.graph with nextLabel := 2 }) := rfl
  have hmade : (do return Body.plain (.inst (.var .vector
      (← newComputed (← Body.formulaOf (.cell other))))) :
        GraphM K (Mat K) (Except Error (Reply K))) w.graph =
        some (Body.plain (vector ⟨1, generation + 1⟩), g) := by
    rw [run_bind, hread, Option.bind_some, run_bind]
    exact congrArg (Option.bind · _) (newComputed_copy _ _ generation inserted)
  have hrun : (⟨.newComputed .vector, (.cell other, ())⟩ : Call K).run w =
      some (.ok { object := vector ⟨1, generation + 1⟩ }, { w with graph := g }) :=
    Session.onGraph_of_run hmade
  exact h.call_new (.call "var" [.ref "z"]) "y" _ _ _ rfl trivial hrun rfl

/-- However often nodes come and go, the sessions in between are reached. -/
theorem steady_rounds (k : Nat) :
    (session (vacated (.vector x) (.vector z) (.ofNat k) (k + 3)).graph kept :
      Session K (Mat K)).Steady := by
  induction k with
  | zero => exact steady_vacated x z
  | succ k ih =>
    rw [UInt32.ofNat_add, Nat.add_right_comm]
    exact steady_round x z ih

theorem steady_wrapped :
    (session (wrapped (.vector x) (.vector z) none none 0).graph (kept ++ [("y", vector target)]) :
      Session K (Mat K)).Steady := by
  have hsize : UInt32.ofNat (UInt32.size - 1) + 1 = 0 := rfl
  have h := steady_renewal x z (steady_rounds x z (UInt32.size - 1))
  rw [hsize] at h
  exact h

theorem steady_wrapped_one {t : Tensor K} {v : Value K} {d : Mat K} (hv : t.toMatrix? = some v)
    (hd : HostDerivative.ofValue v = some d) :
    (session (wrapped (.vector x) (.vector z) none (some ⟨0, d⟩) 1).graph
      (kept ++ [("y", vector target)]) : Session K (Mat K)).Steady := by
  let s : Session K (Mat K) := session (wrapped (.vector x) (.vector z) none none 0).graph
    (kept ++ [("y", vector target)])
  have hcall : s.call? (.method (.ref "z") "set_derivative" [.array t]) =
      some ⟨.setDerivative .vector .matrix, (other, v, ())⟩ := by
    refine Session.call?_method rfl rfl setDerivative_offered ?_
    simp [Body.call?, Param.convertAll?, Param.convert?, Object.toValue?, hv]
  have hgive : (do Graph.giveDerivative other (← ofOption (HostDerivative.ofValue v))
                   return Body.plain .none : GraphM K (Mat K) (Except Error (Reply K)))
      s.world.graph = some (Body.plain .none,
        (wrapped (.vector x) (.vector z) none (some ⟨0, d⟩) 1 : Workbench K (Mat K)).graph) := by
    rw [hd]
    rfl
  have hrun : (⟨.setDerivative .vector .matrix, (other, v, ())⟩ : Call K).run s.world =
      some (.ok { object := .none }, { s.world with graph :=
        (wrapped (.vector x) (.vector z) none (some ⟨0, d⟩) 1 : Workbench K (Mat K)).graph }) :=
    Session.onGraph_of_run hgive
  exact (steady_wrapped x z).call_none _ _ _ hcall trivial hrun

end Recycling

end GradientGraph
