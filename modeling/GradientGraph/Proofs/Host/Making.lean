import GradientGraph.Proofs.Graph.Making
import GradientGraph.Proofs.Host.Side
import GradientGraph.Proofs.Program.Memory

/-!
# Calls from a host

Whatever function of a module is called, the graph stays orderly with the formulas
held outside, those of the reply among them, and every program goes on to remember.
-/

set_option autoImplicit false

namespace GradientGraph

open GradientGraph.Graph World

structure World.Orderly {K D : Type} (H : Set (Formula K)) (w : World K D) : Prop where
  graph : w.graph.Orderly H
  programs : ∀ p ∈ w.programs, p.Remembers w.graph

theorem World.Orderly.mono {K D : Type} {H H' : Set (Formula K)} {w : World K D}
    (h : w.Orderly H) (hH : H' ⊆ H) : w.Orderly H' := ⟨h.graph.mono hH, h.programs⟩

def Reply.given {K : Type} : Except Error (Reply K) → Set (Formula K)
  | .ok r => r.object.formulas
  | .error _ => ∅

section Rules

variable {K D α β : Type} {H : Set (Formula K)}

/-- Whether the computation leaves the world orderly, with the formulas `Q` of its
result held beside those of `H`. -/
def Hosts (H : Set (Formula K)) (m : HostM K D α) (Q : α → Set (Formula K)) : Prop :=
  ∀ (w : World K D) (x : α) (w' : World K D), w.Orderly H → m w = some (x, w') →
    w'.Orderly (Q x ∪ H)

theorem hosts_pure {x : α} {Q : α → Set (Formula K)} (hQ : Q x ⊆ H) :
    Hosts H (pure x : HostM K D α) Q := by
  intro w y w' hw h
  cases h
  exact hw.mono (Set.union_subset hQ (subset_refl H))

theorem Hosts.bind {m : HostM K D α} {f : α → HostM K D β} {Q : α → Set (Formula K)}
    {R : β → Set (Formula K)} (hm : Hosts H m Q) (hf : ∀ x, Hosts (Q x ∪ H) (f x) R) :
    Hosts H (m >>= f) R := by
  intro w y w'' hw h
  obtain ⟨x, w', hx, hy⟩ := exists_of_bind h
  refine (hf x w' y w'' (hm w x w' hw hx) hy).mono ?_
  exact Set.union_subset_union_right _ Set.subset_union_right

theorem hosts_onGraph {m : GraphM K D α} {Q : α → Set (Formula K)} (hm : Brings H m Q) :
    Hosts H (onGraph m) Q := by
  intro w x w' hw h
  obtain ⟨⟨y, g⟩, hy, h⟩ := Option.map_eq_some_iff.mp h
  cases h
  obtain ⟨hages, horderly⟩ := hm w.graph x g hw.graph hy
  exact ⟨horderly, fun p hp => (hw.programs p hp).ages hages⟩

theorem hosts_onProgram {id : ProgramId} {m : Program D → GraphM K D (Program D × α)}
    {Q : α → Set (Formula K)}
    (hm : ∀ (p : Program D) (g : Graph K D) (q : Program D) (x : α) (g' : Graph K D),
      p.Remembers g → m p g = some ((q, x), g') →
        g.Keeps g' ∧ q.Remembers g' ∧ Q x ⊆ H) :
    Hosts H (onProgram id m) Q := by
  intro w x w' hw h
  obtain ⟨_, _, hget, h⟩ := exists_of_bind h
  cases hget
  cases hp : w.programs[id]? with
  | none =>
    simp only [hp] at h
    cases h
  | some p =>
    simp only [hp] at h
    obtain ⟨⟨q, y⟩, w₁, hrun, h⟩ := exists_of_bind h
    cases h
    obtain ⟨⟨_, g⟩, hy, hw₁⟩ := Option.map_eq_some_iff.mp hrun
    cases hw₁
    have hmem : p ∈ w.programs := by
      obtain ⟨hlt, rfl⟩ := Array.getElem?_eq_some_iff.mp hp
      exact Array.getElem_mem hlt
    obtain ⟨hkeeps, hq, hx⟩ := hm p w.graph q _ g (hw.programs p hmem) hy
    refine ⟨(hw.graph.keeps hkeeps).mono (Set.union_subset hx (subset_refl H)), ?_⟩
    intro r hr
    obtain hr | rfl := Array.mem_or_eq_of_mem_setIfInBounds hr
    · exact (hw.programs r hr).ages hkeeps.ages
    · exact hq

end Rules

namespace Body

section Operations

variable {K D : Type} {H : Set (Formula K)}

theorem brings_formulaOf {x : Operand K} (hx : x.formulas ⊆ H) :
    Brings H (formulaOf x : GraphM K D (Formula K)) fun a => {a} := by
  cases x with
  | cell n => exact brings_read n
  | term a => exact brings_pure hx

theorem brings_operation {b : Formula K} (hb : b.FormedOf H) :
    Brings H (operation b : GraphM K D (Formula K)) fun a => {a} :=
  brings_share hb (fun a => a) fun _ => Set.subset_union_left

theorem brings_literalOf (v : Value K) :
    Brings H (literalOf v : GraphM K D (Formula K)) fun a => {a} :=
  brings_share (Formula.formedOf_literal v) (fun a => a) fun _ => Set.subset_union_left

theorem brings_side {x : Side K} (hx : x.formulas ⊆ H) :
    Brings H (x.formula : GraphM K D (Formula K)) fun a => {a} := by
  cases x with
  | literal v => exact brings_literalOf v
  | operand x => exact brings_formulaOf hx

theorem given_operation (c : Category) (a : Formula K) :
    Reply.given (plain (.inst (.operation c a))) ⊆ {a} := by
  rintro b (_ | _)
  rfl

theorem given_of_none {o : Object K} (h : ∀ a, ¬o.Holds a) : Reply.given (plain o) ⊆ H :=
  fun a ha => absurd ha (h a)

variable [Zero K] [Add K] [Mul K] [MulAdd K] [Capacity K] [NatCast K] [Calculus K]

theorem silent_checkShapes (k : BinaryKernel) (name : String) (l r : Formula K) :
    Silent (checkShapes k name l r : GraphM K D (Except Error Unit)) :=
  (silent_evaluate _).bind fun _ => (silent_evaluate _).bind fun _ =>
    (silent_forget l).bind fun _ => (silent_forget r).bind fun _ =>
      silent_ite (silent_pure _) (silent_pure _)

theorem brings_applyBinary {k : BinaryKernel} {c : Category} {checkedAs : Option String}
    {l r : Formula K} (hl : l.FormedOf H) (hr : r.FormedOf H) :
    Brings H (applyBinary k c checkedAs l r : GraphM K D (Except Error (Reply K)))
      Reply.given := by
  have herror (e : Error) : Brings H (pure (.error e) : GraphM K D (Except Error (Reply K)))
      Reply.given := brings_pure (Set.empty_subset H)
  have hmake : Brings H (do return plain (.inst (.operation c (← operation (.binary k l r)))) :
      GraphM K D (Except Error (Reply K))) Reply.given := by
    refine (brings_operation (Formula.formedOf_binary k hl hr)).map
      (fun a => plain (.inst (.operation c a))) fun a => ?_
    exact (given_operation c a).trans Set.subset_union_left
  unfold applyBinary
  cases checkedAs with
  | none =>
    refine (silent_pure _).before fun fits => ?_
    cases fits with
    | error e => exact herror e
    | ok _ => exact hmake
  | some name =>
    refine (silent_checkShapes k name l r).before fun fits => ?_
    cases fits with
    | error e => exact herror e
    | ok _ => exact hmake

theorem brings_binary {k : BinaryKernel} {c : Category} {checkedAs : Option String}
    {l r : GraphM K D (Formula K)} (hl : Brings H l fun a => {a})
    (hr : ∀ a, Brings ({a} ∪ H) r fun b => {b}) :
    Brings H (do applyBinary k c checkedAs (← l) (← r)) Reply.given := by
  refine hl.bind fun a => (hr a).bind fun b => brings_applyBinary ?_ ?_
  · exact Formula.formedOf_mem (.inr (.inl rfl))
  · exact Formula.formedOf_mem (.inl rfl)

end Operations

section Replies

variable {K D α : Type} {H : Set (Formula K)}

theorem given_unitReply (r : Except Error Unit) :
    Reply.given (unitReply r : Except Error (Reply K)) ⊆ H := by
  cases r with
  | error e => exact Set.empty_subset H
  | ok _ => exact given_of_none fun a ha => by cases ha

theorem hosts_silent {m : GraphM K D α} (hm : Silent m) {f : α → Object K}
    (hf : ∀ x a, ¬(f x).Holds a) :
    Hosts H (onGraph do return plain (f (← m)) : HostM K D (Except Error (Reply K)))
      Reply.given :=
  hosts_onGraph (hm.brings.map (fun x => plain (f x)) fun x => given_of_none (hf x))

theorem hosts_addProgram (targets sources : List NodeId) :
    Hosts H (addProgram (Program.create targets sources) : HostM K D (Except Error (Reply K)))
      Reply.given := by
  cases hp : (Program.create targets sources : Except Error (Program D)) with
  | error e => exact hosts_pure (Set.empty_subset H)
  | ok q =>
    intro w x w' hw h
    cases h
    refine ⟨hw.graph.mono (Set.union_subset (given_of_none fun a ha => ?_) (subset_refl H)), ?_⟩
    · cases ha
    · intro r hr
      obtain hr | rfl := Array.mem_push.mp hr
      · exact hw.programs r hr
      · exact Program.remembers_create hp

theorem hosts_ask (id : ProgramId) {f : Program D → Graph K D → Object K}
    (hf : ∀ p g a, ¬(f p g).Holds a) :
    Hosts H (onProgram id fun p => do return (p, plain (f p (← get))) :
      HostM K D (Except Error (Reply K))) Reply.given := by
  apply hosts_onProgram
  intro p g q x g' hp h
  cases h
  exact ⟨.refl g, hp, given_of_none (hf p g)⟩

theorem hosts_compile (id : ProgramId) :
    Hosts H (onProgram id fun p => do
      let (p, r) ← look p.compile
      return (p, unitReply r) : HostM K D (Except Error (Reply K))) Reply.given := by
  apply hosts_onProgram
  intro p g q x g' _ h
  cases h
  exact ⟨.refl g, Program.remembers_compile p g, given_unitReply _⟩

theorem given_none (displaced : List NodeId) :
    Reply.given (.ok ({ object := .none, displaced } : Reply K)) ⊆ H := by
  intro a ha
  cases ha

theorem holds_ofValue [Zero K] {a : Formula K} (v : Value K) : ¬(Object.ofValue v).Holds a := by
  intro hv
  unfold Object.ofValue at hv
  split at hv <;> cases hv

end Replies

section Run

variable {K D : Type} [Zero K] [One K] [Add K] [Mul K] [MulAdd K] [Capacity K] [NatCast K]
  [Calculus K] [Differential K D] {H : Set (Formula K)}

theorem hosts_pass (x : Pass) (id : ProgramId) :
    Hosts H (onProgram id fun p => do
      let (p, r) ← x.run p
      return (p, unitReply r) : HostM K D (Except Error (Reply K))) Reply.given := by
  apply hosts_onProgram
  intro p g q y g' hp h
  obtain ⟨⟨q, r⟩, g₁, hrun, h⟩ := exists_of_bind h
  cases h
  obtain ⟨hkeeps, hq⟩ := Program.run_keeps hp hrun
  exact ⟨hkeeps, hq, given_unitReply r⟩

variable [HostDerivative K D]

theorem hosts_run (b : Body) (args : Param.Carriers K b.params)
    (hargs : Object.formulasOf (Param.toObjects b.params args) ⊆ H) :
    Hosts H (b.run args : HostM K D (Except Error (Reply K))) Reply.given := by
  cases b with
  | newDefault c => exact hosts_silent (silent_newVariable _) fun n a h => by cases h
  | newLiteral c => exact hosts_silent (silent_newVariable _) fun n a h => by cases h
  | newComputed c =>
    obtain ⟨x, _⟩ := args
    apply hosts_onGraph
    refine (brings_formulaOf (operand_subset hargs (List.mem_cons_self ..))).bind fun e => ?_
    refine (brings_newComputed (Formula.formedOf_mem (.inl rfl))).map
      (fun n => plain (.inst (.var c n))) fun n => ?_
    exact given_of_none fun a h => by cases h
  | value c => exact hosts_silent (silent_cell _) fun c a => holds_ofValue _
  | assignLiteral c =>
    apply hosts_onGraph
    exact (silent_assignLiteral _ _).brings.map
      (fun displaced => Except.ok ({ object := .none, displaced } : Reply K)) given_none
  | assignExpression c =>
    obtain ⟨n, x, _⟩ := args
    have hx : x.formulas ⊆ H :=
      operand_subset hargs (List.mem_cons_of_mem _ (List.mem_cons_self ..))
    apply hosts_onGraph
    refine (brings_formulaOf hx).bind fun e => ?_
    exact (brings_assignFormula n (Formula.formedOf_mem (.inl rfl))).map
      (fun displaced => Except.ok ({ object := .none, displaced } : Reply K)) given_none
  | setDerivative c d =>
    apply hosts_onGraph
    refine (silent_ofOption _).before fun d => (silent_giveDerivative _ d).before fun _ => ?_
    exact brings_pure (given_of_none fun a h => by cases h)
  | derivative c =>
    exact hosts_silent (silent_get.bind fun _ => silent_pure _) fun d a => holds_ofValue _
  | unary k c =>
    obtain ⟨x, _⟩ := args
    apply hosts_onGraph
    refine (brings_formulaOf (operand_subset hargs (List.mem_cons_self ..))).bind fun e => ?_
    refine (brings_operation (Formula.formedOf_unary k (Formula.formedOf_mem (.inl rfl)))).map
      (fun a => plain (.inst (.operation (k.category c) a))) fun a => ?_
    exact (given_operation _ a).trans Set.subset_union_left
  | binary k l r c operands name =>
    obtain ⟨op, hop⟩ := exists_operator k l r c operands name args
    obtain ⟨hl, hr⟩ := sides_among hop
    rw [Operator.run_eq hop]
    exact hosts_onGraph (brings_binary (brings_side (hl.formulas hargs)) fun _ =>
      brings_side ((hr.formulas hargs).trans Set.subset_union_right))
  | newProgram => exact hosts_addProgram _ _
  | newBoundedProgram => exact hosts_addProgram _ _
  | compile => exact hosts_compile _
  | compiled => exact hosts_ask _ fun p g a h => by cases h
  | evaluate => exact hosts_pass .evaluate args.1
  | pushTangent => exact hosts_pass .pushTangent args.1
  | pushTangentAt => exact hosts_pass (.pushTangentAt args.2.1) args.1
  | pullGradient => exact hosts_pass .pullGradient args.1
  | pullGradientAt => exact hosts_pass (.pullGradientAt args.2.1) args.1
  | programText =>
    apply hosts_onProgram
    intro p g q x g' hp h
    cases h
    exact ⟨.refl g, hp, given_of_none fun a h => by cases h⟩
  | echo label params =>
    have hecho : Reply.given (plain (.tuple (.str label :: Param.toObjects params args))) ⊆ H := by
      rintro a (_ | ⟨hmem, ho⟩)
      obtain rfl | hmem := List.mem_cons.mp hmem
      · cases ho
      · exact hargs ⟨_, hmem, ho⟩
    rw [run]
    split
    · exact hosts_pure (Set.empty_subset H)
    · exact hosts_pure hecho

end Run

end Body

end GradientGraph
