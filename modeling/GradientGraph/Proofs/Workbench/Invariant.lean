import GradientGraph.Proofs.Graph.Making
import GradientGraph.Proofs.Program.Memory
import GradientGraph.Proofs.Workbench.Step

/-!
# What holds of every workbench

Whatever steps are taken, the graph is orderly with the formulas of the stored items, and
every program remembers a plan of what the graph used to be.
-/

set_option autoImplicit false

namespace GradientGraph

open GradientGraph.Graph

def Item.formulas {K : Type} : Item K → Set (Formula K)
  | .var _ _ => ∅
  | .operation _ a | .wrapper _ a | .evaluator _ a => {a}

namespace Workbench

variable {K D α : Type}

def held (w : Workbench K D) : Set (Formula K) := {a | ∃ e ∈ w.items, a ∈ e.2.formulas}

/-- What holds of a workbench while the formulas `H` are held beside those of the stored
items. -/
structure Orderly (H : Set (Formula K)) (w : Workbench K D) : Prop where
  graph : w.graph.Orderly (H ∪ w.held)
  programs : ∀ e ∈ w.programs, e.2.Remembers w.graph

variable {H H' : Set (Formula K)} {w : Workbench K D}

theorem Orderly.mono (h : w.Orderly H) (hH : H' ⊆ H) : w.Orderly H' :=
  ⟨h.graph.mono (Set.union_subset_union_left _ hH), h.programs⟩

theorem orderly_release (pending : List NodeId) (h : w.Orderly H) :
    (w.release pending).Orderly H := by
  have hkeeps := Keeps.release (itemNodes w.items) pending w.graph
  exact ⟨h.graph.keeps hkeeps, fun e he => (h.programs e he).ages hkeeps.ages⟩

theorem orderly_store (name : String) {x : Item K} (h : w.Orderly x.formulas) :
    (w.store name x).Orderly ∅ := by
  refine orderly_release _ (w := { w with items := w.items.put name x })
    ⟨h.graph.mono ?_, h.programs⟩
  rintro a (ha | ⟨e, he, ha⟩)
  · cases ha
  · obtain rfl | he := Table.mem_put he
    · exact .inl ha
    · exact .inr ⟨e, he, ha⟩

theorem store_new {w : Workbench K D} {name : String} (y : Item K)
    (h : w.items.find? name = none) :
    w.store name y = { w with items := w.items.put name y } := by
  simp only [store, h, release, Option.map_none, Option.getD_none, release_nil]

theorem orderly_forget (name : String) (h : w.Orderly ∅) : (w.forget name).Orderly ∅ := by
  refine orderly_release _
    (w := { w with items := w.items.erase name, programs := w.programs.erase name })
    ⟨h.graph.mono ?_, fun e he => h.programs e (Table.mem_erase he)⟩
  rintro a (ha | ⟨e, he, ha⟩)
  · cases ha
  · exact .inr ⟨e, Table.mem_erase he, ha⟩

theorem Orderly.brings (hw : w.Orderly H) {m : GraphM K D α} {Q : α → Set (Formula K)}
    (hm : Brings (H ∪ w.held) m Q) {y : α} {g : Graph K D} (hrun : m w.graph = some (y, g)) :
    ({ w with graph := g } : Workbench K D).Orderly (Q y ∪ H) := by
  obtain ⟨hages, hg⟩ := hm w.graph y g hw.graph hrun
  refine ⟨?_, fun e he => (hw.programs e he).ages hages⟩
  rw [Set.union_assoc]
  exact hg

theorem Orderly.silent (hw : w.Orderly H) {m : GraphM K D α} (hm : Silent m) {y : α}
    {g : Graph K D} (hrun : m w.graph = some (y, g)) :
    ({ w with graph := g } : Workbench K D).Orderly H :=
  (hw.brings hm.brings hrun).mono Set.subset_union_right

theorem Orderly.put (hw : w.Orderly H) (name : String) {p : Program D} {g : Graph K D}
    (hg : w.graph.Keeps g) (hp : p.Remembers g) :
    ({ w with graph := g, programs := w.programs.put name p } : Workbench K D).Orderly H := by
  refine ⟨hw.graph.keeps hg, fun e he => ?_⟩
  obtain he | he := Table.mem_put he
  · rw [he]
    exact hp
  · exact (hw.programs e he).ages hg.ages

theorem item_subset {name : String} {x : Item K} (h : w.item name = .ok x)
    (hH : w.held ⊆ H) : x.formulas ⊆ H := by
  unfold item at h
  split at h
  · rename_i hfind
    cases h
    exact fun a ha => hH ⟨_, Table.mem_of_find? hfind, ha⟩
  · cases h

theorem brings_formula {x : Item K} (hx : x.formulas ⊆ H) :
    Brings H (x.formula : GraphM K D (Formula K)) fun a => {a} := by
  cases x with
  | var c n => exact brings_read n
  | operation c a => exact brings_formed (Formula.formedOf_mem (hx rfl))
  | wrapper c a => exact brings_formed (Formula.formedOf_mem (hx rfl))
  | evaluator c a => exact brings_formed (Formula.formedOf_mem (hx rfl))

theorem brings_operand {x : Argument K} {c : Category} {m : GraphM K D (Formula K)}
    (h : w.operand x = .ok (c, m)) (hH : w.held ⊆ H) : Brings H m fun a => {a} := by
  cases x with
  | literal v =>
    cases h
    exact brings_share (Formula.formedOf_literal v) (fun a => a) fun _ => Set.subset_union_left
  | ref name =>
    obtain ⟨x, hx, h⟩ := exists_of_except_bind h
    cases h
    exact brings_formula (item_subset hx hH)

theorem silent_formula (x : Item K) : Silent (x.formula : GraphM K D (Formula K)) := by
  cases x with
  | var c n => exact silent_freshLabel.bind fun _ => silent_pure _
  | operation c a => exact silent_pure a
  | wrapper c a => exact silent_pure a
  | evaluator c a => exact silent_pure a

theorem runProgram_ok {name : String} {m : GraphM K D (Program D × Except Error Unit)}
    {q : Program D} {g : Graph K D} (h : m w.graph = some ((q, .ok ()), g)) :
    w.runProgram name m =
      some ({ w with graph := g, programs := w.programs.put name q }, .ok .nothing) := by
  rw [runProgram, onGraph, h]
  rfl

section Steps

variable [Zero K] [Add K] [Mul K] [MulAdd K] [Capacity K] [NatCast K] [Calculus K]

theorem silent_readItem (x : Item K) : Silent (readItem x : GraphM K D (Value K)) := by
  cases x with
  | var c n => exact (silent_cell n).bind fun _ => silent_pure _
  | operation c a => exact silent_evaluateOnce a
  | wrapper c a => exact silent_evaluate _
  | evaluator c a => exact silent_evaluate _

theorem Assigns.brings {deed : Deed D} {m : GraphM K D (List NodeId)} (h : w.Assigns deed m)
    (hH : w.held ⊆ H) : Brings H m fun _ => ∅ := by
  cases h with
  | literal hn v => exact (silent_assignLiteral _ v).brings
  | formula hn hy =>
    exact (brings_formula (item_subset hy hH)).bind fun a =>
      brings_assignFormula _ (Formula.formedOf_mem (.inl rfl))

theorem Makes.orderly {m : GraphM K D (Item K)} (hm : w.Makes m) (hw : w.Orderly ∅) {y : Item K}
    {g : Graph K D} (hrun : m w.graph = some (y, g)) :
    ({ w with graph := g } : Workbench K D).Orderly y.formulas := by
  have hheld : w.held ⊆ ∅ ∪ w.held := Set.subset_union_right
  have hbrings (hm : Brings (∅ ∪ w.held) m Item.formulas) :
      ({ w with graph := g } : Workbench K D).Orderly y.formulas :=
    (hw.brings hm hrun).mono Set.subset_union_left
  cases hm with
  | fresh c v => exact hbrings ((silent_newVariable v).brings.map _ fun _ => Set.empty_subset _)
  | computed hx =>
    refine hbrings ((brings_formula (item_subset hx hheld)).bind fun a => ?_)
    exact (brings_newComputed (Formula.formedOf_mem (.inl rfl))).map _
      fun _ => Set.empty_subset _
  | binary hl hr k c =>
    refine hbrings <| (brings_operand hl hheld).bind fun x =>
      (brings_operand hr (hheld.trans Set.subset_union_right)).bind fun y => ?_
    refine brings_share (Formula.formedOf_binary k ?_ ?_) _ fun _ => Set.subset_union_left
    · exact Formula.formedOf_mem (.inr (.inl rfl))
    · exact Formula.formedOf_mem (.inl rfl)
  | unary hl k c =>
    refine hbrings ((brings_operand hl hheld).bind fun a => ?_)
    exact brings_share (Formula.formedOf_unary k (Formula.formedOf_mem (.inl rfl))) _
      fun _ => Set.subset_union_left
  | wrapper hx =>
    exact hbrings ((brings_formula (item_subset hx hheld)).map _ fun _ => Set.subset_union_left)
  | evaluator hx =>
    refine hbrings ((brings_formula (item_subset hx hheld)).bind fun a => ?_)
    exact brings_share (Formula.formedOf_mem (.inl rfl)) _ fun _ => Set.subset_union_left
  | expression ha c =>
    cases hrun
    exact ⟨(hw.graph.uses ha).mono (Set.union_subset_union_right _ hheld), hw.programs⟩

variable [One K] [Differential K D]

theorem Inquires.silent {x : Step K D} {deed : Deed D} {m : GraphM K D α}
    (h : w.Inquires x deed m) : Silent m := by
  cases h with
  | value hx => exact silent_readItem _
  | text name n => exact silent_cell n
  | stateText name n => exact silent_cell n
  | isConstant name x => exact silent_formula x
  | forget name x => exact (silent_formula x).bind fun a => silent_forget a
  | pushForward hx => exact (silent_formula _).bind fun a => silent_pushForward _
  | pullBack hx d => exact (silent_formula _).bind fun a => silent_pullBack _ d
  | accumulate name n d => exact silent_accumulate n d
  | clearDerivative name n => exact silent_clearDerivative n

variable [NumberText K] [HostDerivative K D]

theorem step_compile_ok {name : String} {p q : Program D} (hp : w.programs.find? name = some p)
    (h : p.compile w.graph = (q, .ok ())) : w.step (.run name .compile) =
      some ({ w with programs := w.programs.put name q }, .ok .nothing) := by
  rw [step, hp]
  exact runProgram_ok (m := look p.compile) (congrArg (fun r => some (r, w.graph)) h)

theorem orderly_step (hw : w.Orderly ∅) {w' : Workbench K D} {x : Step K D}
    {r : Except Failure (Answer K)} (h : w.step x = some (w', r)) : w'.Orderly ∅ := by
  cases steps h with
  | asked => exact hw
  | noted => exact ⟨hw.graph, hw.programs⟩
  | inquired hm hrun => exact hw.silent hm.silent hrun
  | made _ hm hrun name => exact orderly_store name (hm.orderly hw hrun)
  | assigned hm hrun =>
    have hassigned := hw.brings (hm.brings Set.subset_union_right) hrun
    exact orderly_release _ (hassigned.mono (Set.empty_subset _))
  | given hn hdeed hrun => exact hw.silent (silent_giveDerivative _ _) hrun
  | dropped => exact orderly_forget _ hw
  | @stored name _ _ _ p hp => exact hw.put name (.refl _) (Program.remembers_create hp)
  | @compiled name p => exact hw.put name (.refl _) (p.remembers_compile w.graph)
  | @passed name _ _ hp _ _ _ _ hrun =>
    obtain ⟨hkeeps, hq⟩ := Program.run_keeps (hw.programs _ (Table.mem_of_find? hp)) hrun
    exact hw.put name hkeeps hq

inductive Reachable : Workbench K D → Prop where
  | start : Reachable {}
  | step {w w' : Workbench K D} {r : Except Failure (Answer K)} (x : Step K D)
    (hw : Reachable w) (h : w.step x = some (w', r)) : Reachable w'

theorem Reachable.orderly (h : w.Reachable) : w.Orderly ∅ := by
  induction h with
  | start =>
    refine ⟨orderly_empty.mono ?_, fun e he => by cases he⟩
    rintro a (ha | ⟨e, he, -⟩)
    · cases ha
    · cases he
  | step x hw h ih => exact orderly_step ih h

end Steps

end Workbench

end GradientGraph
