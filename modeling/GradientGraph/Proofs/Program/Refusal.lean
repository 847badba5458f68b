import GradientGraph.Proofs.Host.Harmless
import GradientGraph.Proofs.Program.History
import GradientGraph.Proofs.Program.Setting

/-!
# What is refused has not begun

Whatever a session or a workbench refuses, the graph is as it was, and of the programs only
the one that was asked may have another plan. The checks of a program come before its pass
touches anything, overloads are selected without the graph, and shapes are checked before an
operation is made.
-/

set_option autoImplicit false

namespace GradientGraph

open GradientGraph.Graph

namespace Session

open Body

variable {K D : Type} [Zero K] [One K] [Add K] [Mul K] [MulAdd K] [Capacity K] [NatCast K]
  [Calculus K] [Differential K D] [HostDerivative K D] {s s' : Session K D}

theorem harmless_perform {request : Request K} {m : HostM K D (Except Error (Reply K))}
    (h : s.perform request = .ok m) : Harmless s.nodes (deedOf (s.call? request)) m := by
  cases performs h with
  | call hc hbody hargs =>
    rw [hc]
    exact harmless_run _ _ (Object.nodesIn_subset hargs)
  | refused hc e => exact harmless_pure (lends_error e)
  | bare hc name =>
    refine harmless_settled fun w r w' h => ?_
    obtain ⟨id, w₁, -, h⟩ := exists_of_bind h
    cases h
    exact ⟨_, rfl, rfl⟩
  | @copy hc o ho =>
    refine harmless_pure (lends_plain fun n hn => ?_)
    exact Object.nodesIn_subset ho ⟨o, List.mem_cons_self .., hn⟩

variable [BEq K]

/-- A step that is refused changes nothing but the state of the program that it asks. -/
theorem step_spares {x : Step K} {r : Except Failure (Answer K)}
    (hs : s.world.graph.Confined ∅) (h : s.step x = some (s', r)) (hr : r.isOk = false) :
    s.world.scene.Spares (s.deed x) s'.world.scene := by
  have hidle : s.world.scene.Spares (s.deed x) s.world.scene := ⟨.refl _, fun _ => .inl rfl⟩
  cases steps h with
  | refused hm hrun => exact (harmless_perform hm s.world _ _ hs hrun).1 rfl
  | unnamed => exact hidle
  | asked => exact hidle
  | _ => cases hr

def former (s : Session K D) (storeAs : Option String) : List NodeId :=
  ((storeAs.bind s.objects.find?).map (·.nodes)).getD []

theorem step_operation {request : Request K} {storeAs : Option String} {o : Object K}
    {a : Formula K} (hs : s.world.graph.Confined ∅)
    (h : s.step (.make request storeAs) = some (s', .ok (.object o)))
    (ho : o.operation? = some a) :
    ∃ g, s.world.graph.Relabels g ∧
      s'.world.graph = g.release (objectNodes s'.objects) (s.former storeAs) ∧
      s'.world.programs = s.world.programs := by
  cases steps h with
  | asked hx => cases hx
  | @made _ m hm reply w hrun =>
    obtain ⟨hgraph, hprograms, hnodes, hdisplaced⟩ :=
      (harmless_perform hm s.world _ _ hs hrun).2 reply a rfl ho
    have hnone : reply.displaced = [] := hdisplaced reply rfl
    have hlent : ∀ n ∈ reply.object.nodes, n ∈ objectNodes s.objects ++ [] := by
      intro n hn
      rw [List.append_nil]
      exact mem_objectNodes.mpr (hnodes hn)
    refine ⟨w.graph, hgraph, ?_, ?_⟩
    · cases storeAs with
      | none =>
        simp only [keep, Session.release, hnone, release_nil, former, Option.bind_none,
          Option.map_none, Option.getD_none]
        exact release_held w.graph hlent
      | some name =>
        simp only [keep, store, Session.release, hnone, release_nil, former, List.append_nil]
        rfl
    · cases storeAs <;> exact hprograms

end Session

namespace Workbench

variable {K D : Type} {w w' : Workbench K D}

theorem spares_put {name : String} {p q : Program D} {deed : Deed D}
    (hp : w.programs.find? name = some p) (hdeed : deed.program? = some (.name name))
    (hq : q = { p with state := q.state }) :
    w.scene.Spares deed { w with programs := w.programs.put name q }.scene := by
  rw [scene_put]
  refine ⟨.refl _, fun f => ?_⟩
  by_cases hf : f = .name name
  · subst hf
    refine .inr ⟨hdeed, p, q.state, hp, ?_⟩
    rw [← hq]
    exact Function.update_self ..
  · exact .inl (Function.update_of_ne hf ..)

variable [Zero K] [One K] [Add K] [Mul K] [MulAdd K] [Capacity K] [NatCast K] [Calculus K]
  [Differential K D] [NumberText K] [HostDerivative K D]

theorem step_spares {x : Step K D} {r : Except Failure (Answer K)}
    (h : w.step x = some (w', r)) (hr : r.isOk = false) :
    w.scene.Spares (w.deed x) w'.scene := by
  cases steps h with
  | asked => exact ⟨.refl _, fun _ => .inl rfl⟩
  | @compiled name p hp hdeed =>
    rw [hdeed]
    exact spares_put hp rfl (p.compile_fst w.graph)
  | @passed name p q hp y hdeed made g hrun r hmade =>
    cases made with
    | ok _ => cases hmade.symm.trans hr
    | error e =>
      obtain ⟨rfl, hq⟩ := Program.run_refused hrun
      rw [hdeed]
      exact spares_put hp rfl hq
  | _ => cases hr

end Workbench

namespace Setting

variable {K D : Type} [Zero K] [One K] [Add K] [Mul K] [MulAdd K] [Capacity K] [NatCast K]
  [Calculus K] [BEq K] [NumberText K] [Differential K D] [HostDerivative K D] {s : Setting K D}

/-- A move that is refused leaves no trace but in the state of the program that it asks. -/
theorem Move.spares {m : Move K D} (h : m.before.Reachable) (hr : m.done = false) :
    m.before.scene.Spares m.deed m.after.scene := by
  cases m.taken_by with
  | session hstep =>
    cases h with
    | session h => exact Session.step_spares h.confined hstep hr
  | workbench hstep => exact Workbench.step_spares hstep hr

/-- In every setting that is reached, what is refused has changed nothing: a compilation
leaves an error and a pass at most a plan in its program, and neither they nor any other step
leave a trace in the graph or in another program. A request to a session that makes a pending
operation changes nothing either; what is given up after it is only the object that its name
stood for before. -/
theorem refused_harmless (h : s.Reachable) :
    (∀ f p, s.program? f = some p →
      (∀ e q, p.compile s.graph = (q, .error e) → q = { p with state := .failed e }) ∧
      ∀ (x : Pass) e q g, x.run p s.graph = some ((q, .error e), g) →
        g = s.graph ∧ q = { p with state := q.state }) ∧
    (∀ x t e, s.step x = some (t, .error e) → s.scene.Spares (s.deed x) t.scene) ∧
    ∀ v request storeAs t c a, s = .session v →
      v.step (.make request storeAs) = some (t, .ok (.object (.inst (.operation c a)))) →
      ∃ g, v.world.graph.Relabels g ∧
        t.world.graph = g.release (Session.objectNodes t.objects) (v.former storeAs) ∧
        t.world.programs = v.world.programs := by
  refine ⟨fun f p _ => ⟨fun e q hq => ?_, fun x e q g => Program.run_refused⟩, ?_, ?_⟩
  · unfold Program.compile at hq
    split at hq <;> cases hq
    rfl
  · intro x t e ht
    exact Move.spares (m := ⟨s, x, .error e, t, ht⟩) h rfl
  · rintro v request storeAs t c a rfl hstep
    cases h with
    | session h => exact Session.step_operation h.confined hstep rfl

/-- A pass from a variable that is no source makes the plan, and then is refused. -/
theorem refused_harmless_unplanned :
    let w : Workbench Float Float :=
      Doubling.Seeded.programs .add 3 (some ⟨1, 4⟩) (some ⟨0, 7⟩) 2 .absent
    let w' : Workbench Float Float :=
      Doubling.Seeded.programs .add 3 (some ⟨1, 4⟩) (some ⟨0, 7⟩) 2 (.compiled Doubling.Seeded.plan)
    w.Reachable ∧
      w.step (.run "f" (.pushTangentAt "y")) = some (w', .error (.refused .notASource)) ∧
      w.scene.Spares (.pass (.name "f") (.pushTangentAt Twice.target)) w'.scene := by
  intro w w'
  have hw : w.Reachable :=
    (Doubling.Seeded.unprobed_both (D := Float) .add 3 4 7).reachable.step
      (.program ["x", "y"] [] "f") rfl
  have hready : (Doubling.Seeded.program : Program Float).ready w.graph =
      ({ Doubling.Seeded.program with state := .compiled Doubling.Seeded.plan },
        .ok Doubling.Seeded.plan) := by
    have hcurrent := Doubling.Seeded.current_planned (D := Float) .add (3 : Float) (some ⟨1, 4⟩)
      (some ⟨0, 7⟩) 2 []
    exact Program.Current.ready ⟨hcurrent.build, .inl rfl⟩
  have hstep : w.step (.run "f" (.pushTangentAt "y")) =
      some (w', .error (.refused .notASource)) := by
    have hrun : (Doubling.Seeded.program : Program Float).pushTangentAt Twice.target w.graph =
        some (({ Doubling.Seeded.program with state := .compiled Doubling.Seeded.plan },
          .error .notASource), w.graph) := by
      rw [Program.pushTangentAt, Program.pass_eq, hready]
      rfl
    change w.runProgram "f"
      ((Doubling.Seeded.program : Program Float).pushTangentAt Twice.target) = _
    rw [Workbench.runProgram, Workbench.onGraph, hrun]
    rfl
  have hsetting : (Setting.workbench w).step (.workbench (.run "f" (.pushTangentAt "y"))) =
      some (.workbench w', .error (.refused .notASource)) := by
    rw [Setting.step, hstep]
    rfl
  exact ⟨hw, hstep, (refused_harmless (.workbench hw)).2.1 _ _ _ hsetting⟩

end Setting

end GradientGraph
