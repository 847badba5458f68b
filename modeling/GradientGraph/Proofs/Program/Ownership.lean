import GradientGraph.Proofs.Program.Mirror
import GradientGraph.Proofs.Workbench.Owned

/-!
# Ownership

Between two moves the nodes that are live are those that are owned, by what is stored or by
the formula of a variable. Programs own nothing, whatever they remember. So far as no
formula reads its own variable through others, a node is live as long as it can be reached
from something stored, and nothing stays behind once all that is stored was dropped.
-/

set_option autoImplicit false

namespace GradientGraph

open GradientGraph.Graph Relation

namespace Setting

section Settings

variable {K D : Type}

/-- Whether a run can start here, with a workbench or with a module that reads variables as
it should, as the built-in ones and a new one do. -/
inductive Opens : Setting K D → Prop where
  | session {m : Module} (h : m.Reads) : Opens (.session { module := m })
  | workbench : Opens (.workbench {})

def Accounted : Setting K D → Prop
  | .session s => s.Accounted
  | .workbench w => w.Accounted

def names : Setting K D → List String
  | .session s => s.objects.names
  | .workbench w => w.items.names

def Step.isDrop : Step K D → Bool
  | .session (.drop _) | .workbench (.drop _) => true
  | _ => false

variable {s : Setting K D}

theorem Opens.starts (h : s.Opens) : s.Starts := by
  cases h with
  | session h => exact .session _
  | workbench => exact .workbench

theorem Accounted.owned (h : s.Accounted) : s.graph.Owned s.nodes := by
  cases s with
  | session s => exact Session.Accounted.owned h
  | workbench w => exact Workbench.Accounted.owned h

end Settings

variable {K D : Type} [Zero K] [One K] [Add K] [Mul K] [MulAdd K] [Capacity K] [NatCast K]
  [Calculus K] [BEq K] [NumberText K] [Differential K D] [HostDerivative K D]
  {s s₀ s' : Setting K D} {m : Move K D} {ms : List (Move K D)}

theorem Run.append {ds : List (Move K D)} (h : Run s₀ ms s) (hs : Run s ds s') :
    Run s₀ (ds ++ ms) s' := by
  induction hs with
  | nil => exact h
  | cons _ ih => exact .cons ih

theorem exists_run {w : Workbench K D} (h : w.Reachable) :
    ∃ ms, Run (.workbench {}) ms (.workbench w) := by
  induction h with
  | start => exact ⟨[], .nil _⟩
  | step x _ hstep ih =>
    obtain ⟨ms, hrun⟩ := ih
    exact ⟨.workbench hstep :: ms, .cons (m := .workbench hstep) hrun⟩

section Drops

theorem Move.sheds (h : m.step.isDrop) : m.before.graph.Sheds m.after.graph := by
  cases m.taken_by with
  | @session s t x r hstep =>
    cases x with
    | drop name =>
      simp only [Session.step] at hstep
      split at hstep
      · cases hstep
        exact .refl _
      · cases hstep
        exact Graph.sheds_release ..
    | _ => cases h
  | @workbench w t x r hstep =>
    cases x with
    | drop name =>
      simp only [Workbench.step] at hstep
      split at hstep
      · cases hstep
        exact Graph.sheds_release ..
      · cases hstep
        exact .refl _
    | _ => cases h

theorem Run.sheds (h : Run s ms s') (hms : ∀ m ∈ ms, m.step.isDrop) :
    s.graph.Sheds s'.graph := by
  induction h with
  | nil => exact .refl _
  | cons _ ih =>
    obtain ⟨hm, hms⟩ := List.forall_mem_cons.mp hms
    exact (ih hms).trans (Move.sheds hm)

end Drops

end Setting

end GradientGraph
