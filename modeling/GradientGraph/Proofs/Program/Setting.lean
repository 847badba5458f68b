import GradientGraph.Proofs.Program.Settled
import GradientGraph.Proofs.Session.Deeds
import GradientGraph.Proofs.Workbench.Deeds

/-!
# Settings and runs

A setting is a session or a workbench. Its moves are the steps that it takes, and a run
is a list of moves, each from where the one before it led.
-/

set_option autoImplicit false

namespace GradientGraph

inductive Setting (K D : Type) where
  | session (s : Session K D)
  | workbench (w : Workbench K D)

namespace Setting

inductive Step (K D : Type) where
  | session (x : Session.Step K)
  | workbench (x : Workbench.Step K D)

section Settings

variable {K D : Type}

def scene : Setting K D → Scene K D
  | .session s => s.world.scene
  | .workbench w => w.scene

abbrev graph (s : Setting K D) : Graph K D := s.scene.graph

abbrev program? (s : Setting K D) : ProgramKey → Option (Program D) := s.scene.program?

def nodes : Setting K D → Set NodeId
  | .session s => s.nodes
  | .workbench w => w.nodes

end Settings

variable {K D : Type} [Zero K] [One K] [Add K] [Mul K] [MulAdd K] [Capacity K] [NatCast K]
  [Calculus K] [BEq K] [NumberText K] [Differential K D] [HostDerivative K D]

def step : Setting K D → Step K D → Option (Setting K D × Except Failure (Answer K))
  | .session s, .session x => (s.step x).map fun (s, r) => (.session s, r)
  | .workbench w, .workbench x => (w.step x).map fun (w, r) => (.workbench w, r)
  | _, _ => none

def deed : Setting K D → Step K D → Deed D
  | .session s, .session x => s.deed x
  | .workbench w, .workbench x => w.deed x
  | _, _ => .nothing

inductive Reachable : Setting K D → Prop where
  | session {s : Session K D} (h : s.Reachable) : Reachable (.session s)
  | workbench {w : Workbench K D} (h : w.Reachable) : Reachable (.workbench w)

structure Move (K D : Type) [Zero K] [One K] [Add K] [Mul K] [MulAdd K] [Capacity K] [NatCast K]
    [Calculus K] [BEq K] [NumberText K] [Differential K D] [HostDerivative K D] where
  before : Setting K D
  step : Step K D
  answer : Except Failure (Answer K)
  after : Setting K D
  taken : before.step step = some (after, answer)

namespace Move

def deed (m : Move K D) : Deed D := m.before.deed m.step

def done (m : Move K D) : Bool := m.answer.isOk

def session {s s' : Session K D} {x : Session.Step K} {r : Except Failure (Answer K)}
    (h : s.step x = some (s', r)) : Move K D where
  before := .session s
  step := .session x
  answer := r
  after := .session s'
  taken := by
    rw [Setting.step, h]
    rfl

def workbench {w w' : Workbench K D} {x : Workbench.Step K D} {r : Except Failure (Answer K)}
    (h : w.step x = some (w', r)) : Move K D where
  before := .workbench w
  step := .workbench x
  answer := r
  after := .workbench w'
  taken := by
    rw [Setting.step, h]
    rfl

inductive Taken : Move K D → Prop where
  | session {s s' : Session K D} {x : Session.Step K} {r : Except Failure (Answer K)}
    (h : s.step x = some (s', r)) : Taken (.session h)
  | workbench {w w' : Workbench K D} {x : Workbench.Step K D} {r : Except Failure (Answer K)}
    (h : w.step x = some (w', r)) : Taken (.workbench h)

theorem taken_by (m : Move K D) : m.Taken := by
  obtain ⟨before, x, r, after, htaken⟩ := m
  cases before with
  | session s =>
    cases x with
    | session x =>
      obtain ⟨⟨t, r⟩, ht, heq⟩ := Option.map_eq_some_iff.mp htaken
      cases heq
      exact .session ht
    | workbench x => cases htaken
  | workbench w =>
    cases x with
    | session x => cases htaken
    | workbench x =>
      obtain ⟨⟨t, r⟩, ht, heq⟩ := Option.map_eq_some_iff.mp htaken
      cases heq
      exact .workbench ht

end Move

/-- Moves, the latest first, that lead from one setting to another. -/
inductive Run : Setting K D → List (Move K D) → Setting K D → Prop where
  | nil (s : Setting K D) : Run s [] s
  | cons {s : Setting K D} {ms : List (Move K D)} {m : Move K D} (h : Run s ms m.before) :
    Run s (m :: ms) m.after

variable {s s' : Setting K D} {m : Move K D} {ms : List (Move K D)}

theorem Reachable.whole (h : s.Reachable) : s.scene.Whole s.nodes := by
  cases h with
  | session h => exact h.whole
  | workbench h => exact h.whole

theorem Reachable.standing (h : s.Reachable) : ∃ (H : Set (Formula K)) (ps : List (Program D)),
    Standing s.graph H ps ∧ ∀ f p, s.program? f = some p → p ∈ ps := by
  cases h with
  | @session s h =>
    refine ⟨_, _, .session h, fun f p hp => ?_⟩
    cases f with
    | number id =>
      obtain ⟨hid, rfl⟩ := Array.getElem?_eq_some_iff.mp hp
      exact Array.mem_toList_iff.mpr (Array.getElem_mem hid)
    | name f => cases hp
  | workbench h =>
    refine ⟨_, _, .workbench h, fun f p hp => ?_⟩
    cases f with
    | number id => cases hp
    | name f => exact List.mem_map_of_mem (Table.mem_of_find? hp)

theorem Reachable.sound (h : s.Reachable) : s.graph.Sound := by
  obtain ⟨_, _, hstanding, -⟩ := h.standing
  exact hstanding.reached.sound

theorem Reachable.remembers (h : s.Reachable) {f : ProgramKey} {p : Program D}
    (hp : s.program? f = some p) : p.Remembers s.graph := by
  obtain ⟨_, _, hstanding, hmem⟩ := h.standing
  exact hstanding.reached.remembers (hmem f p hp)

theorem Move.reachable (h : m.before.Reachable) : m.after.Reachable := by
  cases m.taken_by with
  | session hstep =>
    cases h with
    | session h => exact .session (h.step _ hstep)
  | workbench hstep =>
    cases h with
    | workbench h => exact .workbench (h.step _ hstep)

theorem Move.leads (h : m.before.Reachable) :
    m.before.scene.Leads m.deed m.done m.after.scene := by
  have hwhole := h.whole
  cases m.taken_by with
  | session hstep => exact (Session.step_leads hwhole hstep).1
  | workbench hstep => exact (Workbench.step_leads hwhole hstep).1

theorem Move.program_cases (h : m.before.Reachable) {f : ProgramKey} {p : Program D}
    (hp : m.before.program? f = some p) (hkept : m.deed ≠ .replace f) :
    m.after.program? f = some p ∨
      m.deed = .compile f ∧ m.after.program? f = some (p.compile m.before.graph).1 ∨
      ∃ x q r g, m.deed = .pass f x ∧ x.run p m.before.graph = some ((q, r), g) ∧
        g.Sheds m.after.graph ∧ m.after.program? f = some q ∧ m.done = r.isOk := by
  have hleads := leads h
  by_cases hother : m.deed.program? = some f
  · cases hdeed : m.deed with
    | compile k =>
      rw [hdeed] at hother hleads
      cases hother
      exact .inr (.inl ⟨rfl, (hleads.compiles hp).1⟩)
    | replace k =>
      rw [hdeed] at hother
      cases hother
      exact absurd hdeed hkept
    | pass k x =>
      rw [hdeed] at hother hleads
      cases hother
      obtain ⟨q, r, g, hpasses⟩ := hleads.passes hp
      exact .inr (.inr ⟨x, q, r, g, rfl, hpasses⟩)
    | _ =>
      rw [hdeed] at hother
      cases hother
  · exact .inl (hleads.others hother hp)

theorem Run.reachable (h : Run s ms s') (hs : s.Reachable) : s'.Reachable := by
  induction h with
  | nil => exact hs
  | cons _ ih => exact Move.reachable ih

theorem Run.ages (h : Run s ms s') (hs : s.Reachable) : s.graph.Ages s'.graph := by
  induction h with
  | nil => exact .refl _
  | cons h ih => exact ih.trans (Move.leads (h.reachable hs)).alters.ages

end Setting

end GradientGraph
