import GradientGraph.Proofs.Graph.Residue
import GradientGraph.Proofs.Workbench.Invariant

/-!
# What a workbench remembers

A workbench can evaluate a wrapper or an evaluator by itself, or start a traversal of a
formula. What the parts of it remember then stays. No other step leaves anything
remembered.
-/

set_option autoImplicit false

namespace GradientGraph

open GradientGraph.Graph

def Item.isHandle {K : Type} : Item K → Bool
  | .wrapper _ _ | .evaluator _ _ => true
  | .var _ _ | .operation _ _ => false

namespace Workbench

variable {K D α : Type}

/-- Whether the step evaluates or traverses a formula and does not make it forget. -/
def Probes (w : Workbench K D) : Step K D → Prop
  | .value name => ∃ x, w.item name = .ok x ∧ x.isHandle
  | .pushForward name => ∃ x, w.item name = .ok x ∧ x.node? = none
  | .pullBack name _ => ∃ x, w.item name = .ok x ∧ x.node? = none
  | _ => False

variable {P : Set Label} {w : Workbench K D}

theorem tidy_formula (x : Item K) : Tidy (x.formula : GraphM K D (Formula K)) := by
  cases x with
  | var c n => exact tidy_freshLabel.bind fun _ => tidy_pure _
  | operation c a => exact tidy_pure a
  | wrapper c a => exact tidy_pure a
  | evaluator c a => exact tidy_pure a

theorem tidy_operand {x : Argument K} {c : Category} {m : GraphM K D (Formula K)}
    (h : w.operand x = .ok (c, m)) : Tidy m := by
  cases x with
  | literal v =>
    cases h
    exact tidy_freshLabel.bind fun _ => tidy_pure _
  | ref name =>
    obtain ⟨x, -, h⟩ := exists_of_except_bind h
    cases h
    exact tidy_formula x

theorem confines_formula {x : Item K} (hx : x.node? = none → P = Set.univ)
    {m : Formula K → GraphM K D α}
    (hm : ∀ a, (∀ l, a.expression.HasLabel l → l ∈ P) → Confines P (m a)) :
    Confines P (do m (← x.formula)) := by
  cases x with
  | var c n =>
    change Confines P (freshLabel >>= fun label => m (.read label n))
    refine (tidy_freshLabel P).bind fun label => hm _ fun l hl => ?_
    simp [Formula.read, Expression.HasLabel, Expression.footprint, Footprint.ofNode] at hl
  | operation c a => exact hm a fun l _ => hx rfl ▸ Set.mem_univ l
  | wrapper c a => exact hm a fun l _ => hx rfl ▸ Set.mem_univ l
  | evaluator c a => exact hm a fun l _ => hx rfl ▸ Set.mem_univ l

section Steps

variable [Zero K] [Add K] [Mul K] [MulAdd K] [Capacity K] [NatCast K] [Calculus K]

theorem confines_readItem {x : Item K} (hx : x.isHandle → P = Set.univ) :
    Confines P (readItem x : GraphM K D (Value K)) := by
  cases x with
  | var c n => exact ((tidy_cell n).bind fun _ => tidy_pure _) P
  | operation c a => exact tidy_evaluateOnce a P
  | wrapper c a => exact confines_evaluate fun l _ => hx rfl ▸ Set.mem_univ l
  | evaluator c a => exact confines_evaluate fun l _ => hx rfl ▸ Set.mem_univ l

theorem Assigns.tidy {deed : Deed D} {m : GraphM K D (List NodeId)} (h : w.Assigns deed m) :
    Tidy m := by
  cases h with
  | literal hn v => exact tidy_assignLiteral _ v
  | formula hn hy => exact (tidy_formula _).bind fun a => tidy_assignFormula _ a

theorem Makes.tidy {m : GraphM K D (Item K)} (h : w.Makes m) : Tidy m := by
  cases h with
  | fresh c v => exact (tidy_newVariable v).bind fun _ => tidy_pure _
  | computed hx =>
    exact (tidy_formula _).bind fun a => (tidy_newComputed a).bind fun _ => tidy_pure _
  | binary hl hr k c =>
    exact (tidy_operand hl).bind fun _ => (tidy_operand hr).bind fun _ =>
      tidy_freshLabel.bind fun _ => tidy_pure _
  | unary hl k c =>
    exact (tidy_operand hl).bind fun _ => tidy_freshLabel.bind fun _ => tidy_pure _
  | wrapper hx => exact (tidy_formula _).bind fun _ => tidy_pure _
  | evaluator hx =>
    exact (tidy_formula _).bind fun _ => tidy_freshLabel.bind fun _ => tidy_pure _
  | expression ha c => exact tidy_pure _

variable [One K] [Differential K D]

theorem Inquires.confines {x : Step K D} {deed : Deed D} {m : GraphM K D α}
    (h : w.Inquires x deed m) (hx : w.Probes x → P = Set.univ) : Confines P m := by
  cases h with
  | value hfind => exact confines_readItem fun hhandle => hx ⟨_, hfind, hhandle⟩
  | text name n => exact tidy_cell n P
  | stateText name n => exact tidy_cell n P
  | isConstant name x => exact tidy_formula x P
  | forget name x => exact ((tidy_formula x).bind fun a => tidy_forget a) P
  | pushForward hfind =>
    exact confines_formula (fun hnode => hx ⟨_, hfind, hnode⟩) fun _ ha => confines_pushForward ha
  | pullBack hfind d =>
    exact confines_formula (fun hnode => hx ⟨_, hfind, hnode⟩) fun _ ha => confines_pullBack ha d
  | accumulate name n d => exact tidy_accumulate n d P
  | clearDerivative name n => exact tidy_setDerivative n none P

variable [NumberText K] [HostDerivative K D]

theorem confined_step (hw : w.graph.Confined P) {x : Step K D} (hx : w.Probes x → P = Set.univ)
    {w' : Workbench K D} {r : Except Failure (Answer K)} (h : w.step x = some (w', r)) :
    w'.graph.Confined P := by
  cases steps h with
  | asked => exact hw
  | noted => exact hw
  | inquired hm hrun => exact hm.confines hx w.graph _ _ hw hrun
  | made _ hm hrun => exact (hm.tidy P w.graph _ _ hw hrun).release _ _
  | assigned hm hrun => exact (hm.tidy P w.graph _ _ hw hrun).release _ _
  | given hn hdeed hrun => exact tidy_giveDerivative _ _ P w.graph _ _ hw hrun
  | dropped => exact hw.release _ _
  | stored => exact hw
  | compiled => exact hw
  | @passed _ p _ _ y _ _ _ hrun => exact y.tidy_run p P w.graph _ _ hw hrun

theorem Reachable.confined (h : w.Reachable) : w.graph.Confined Set.univ := by
  induction h with
  | start => exact .start
  | step x hw h ih => exact confined_step ih (fun _ => rfl) h

/-- The workbenches that steps lead to none of which probes. -/
inductive Unprobed : Workbench K D → Prop where
  | start : Unprobed {}
  | step {w w' : Workbench K D} {r : Except Failure (Answer K)} (x : Step K D)
    (hw : Unprobed w) (hx : ¬w.Probes x) (h : w.step x = some (w', r)) : Unprobed w'

theorem Unprobed.reachable (h : w.Unprobed) : w.Reachable := by
  induction h with
  | start => exact .start
  | step x hw hx h ih => exact ih.step x h

theorem Unprobed.confined (h : w.Unprobed) : w.graph.Confined ∅ := by
  induction h with
  | start => exact .start
  | step x hw hx h ih => exact confined_step ih (fun hprobes => absurd hprobes hx) h

end Steps

end Workbench

end GradientGraph
