import GradientGraph.Proofs.Session.Deeds
import GradientGraph.Proofs.Session.Residue

/-!
# Calls that change nothing

A call that is refused has changed nothing yet, and a call that makes a pending operation
changes nothing at all. Formulas are put together beside the graph: what is taken from it are
labels, and shapes are checked by an evaluation that is forgotten again.
-/

set_option autoImplicit false

namespace GradientGraph

open GradientGraph.Graph World

namespace Graph

variable {K D : Type} {g g' g'' : Graph K D}

def Relabels (g g' : Graph K D) : Prop := g' = { g with nextLabel := g'.nextLabel }

namespace Relabels

theorem refl (g : Graph K D) : g.Relabels g := rfl

theorem trans (h : g.Relabels g') (h' : g'.Relabels g'') : g.Relabels g'' := by
  unfold Relabels at h h'
  rw [h] at h'
  exact h'

theorem confined {P : Set Label} (h : g.Relabels g') (hg : g.Confined P) : g'.Confined P := by
  unfold Relabels at h
  rw [h]
  exact ⟨hg.packed, hg.values, hg.tangents⟩

end Relabels

end Graph

def Object.operation? {K : Type} : Object K → Option (Formula K)
  | .inst (.operation _ a) => some a
  | _ => Option.none

namespace Scene

/-- Whether nothing has changed but labels and the state of the program that the deed is
about. -/
structure Spares {K D : Type} (deed : Deed D) (s t : Scene K D) : Prop where
  graph : s.graph.Relabels t.graph
  programs : ∀ f, t.program? f = s.program? f ∨ deed.program? = some f ∧
    ∃ p state, s.program? f = some p ∧ t.program? f = some { p with state }

end Scene

namespace Program

variable {K D : Type}

theorem ready_fst (p : Program D) (g : Graph K D) :
    (p.ready g).1 = { p with state := (p.ready g).1.state } := by
  obtain ⟨hseeds, htargets, hsources⟩ := p.ready_seeds g
  generalize p.ready g = r at hseeds htargets hsources
  obtain ⟨⟨targets, sources, state, seeds⟩, made⟩ := r
  cases hseeds
  cases htargets
  cases hsources
  rfl

theorem compile_fst (p : Program D) (g : Graph K D) :
    (p.compile g).1 = { p with state := (p.compile g).1.state } := by
  unfold compile
  split <;> rfl

theorem run_refused [Zero K] [One K] [Add K] [Mul K] [MulAdd K] [Capacity K] [NatCast K]
    [Calculus K] [Differential K D] {p q : Program D} {g g' : Graph K D} {x : Pass} {e : Error}
    (h : x.run p g = some ((q, .error e), g')) : g' = g ∧ q = { p with state := q.state } := by
  obtain ⟨-, rfl, rfl⟩ | ⟨_, _, hok, -⟩ := run_cases h
  · exact ⟨rfl, p.ready_fst g'⟩
  · cases hok

end Program

section Rules

variable {K D α β : Type} {g : Graph K D} {P : α → Prop} {Q : β → Prop}

/-- Whether the computation, where nothing is remembered, takes labels at most and gives a
result of the kind. -/
def Quiet (P : α → Prop) (m : GraphM K D α) : Prop :=
  ∀ (g : Graph K D) (x : α) (g' : Graph K D), g.Confined ∅ → m g = some (x, g') →
    g.Relabels g' ∧ P x

theorem quiet_pure {x : α} (hx : P x) : Quiet P (pure x : GraphM K D α) := by
  intro g y g' _ h
  cases h
  exact ⟨.refl g, hx⟩

theorem Quiet.bind {m : GraphM K D α} {f : α → GraphM K D β} (hm : Quiet P m)
    (hf : ∀ x, P x → Quiet Q (f x)) : Quiet Q (m >>= f) := by
  intro g y g'' hg h
  obtain ⟨x, g', hx, hy⟩ := exists_of_bind h
  obtain ⟨hg', hP⟩ := hm g x g' hg hx
  obtain ⟨hg'', hQ⟩ := hf x hP g' y g'' (hg'.confined hg) hy
  exact ⟨hg'.trans hg'', hQ⟩

theorem quiet_freshLabel : Quiet (fun _ => True) (freshLabel : GraphM K D Label) := by
  intro g label g' _ h
  cases h
  exact ⟨rfl, trivial⟩

end Rules

namespace Body

section Operations

variable {K D : Type} {N : Set NodeId}

theorem quiet_formulaOf {x : Operand K} (hx : x.nodes ⊆ N) :
    Quiet (·.readSet ⊆ N) (formulaOf x : GraphM K D (Formula K)) := by
  cases x with
  | term a => exact quiet_pure hx
  | cell n =>
    refine quiet_freshLabel.bind fun label _ => quiet_pure fun m hm => hx ?_
    exact List.mem_singleton.mp hm

theorem quiet_operation {a : Formula K} (ha : a.readSet ⊆ N) :
    Quiet (·.readSet ⊆ N) (operation a : GraphM K D (Formula K)) :=
  quiet_freshLabel.bind fun _ _ => quiet_pure ha

theorem quiet_literalOf (v : Value K) :
    Quiet (·.readSet ⊆ N) (literalOf v : GraphM K D (Formula K)) :=
  quiet_freshLabel.bind fun _ _ => quiet_pure fun _ hn => absurd hn List.not_mem_nil

theorem quiet_side {x : Side K} (hx : x.nodes ⊆ N) :
    Quiet (·.readSet ⊆ N) (x.formula : GraphM K D (Formula K)) := by
  cases x with
  | literal v => exact quiet_literalOf v
  | operand x => exact quiet_formulaOf hx

def Lends (N : Set NodeId) (r : Except Error (Reply K)) : Prop :=
  Reply.nodes r ⊆ N ∧ ∀ reply, r = .ok reply → reply.displaced = []

theorem lends_error (e : Error) : Lends N (.error e : Except Error (Reply K)) :=
  ⟨Set.empty_subset N, fun _ h => (by cases h)⟩

theorem lends_plain {o : Object K} (ho : Reply.nodes (plain o) ⊆ N) : Lends N (plain o) := by
  refine ⟨ho, fun reply h => ?_⟩
  cases h
  rfl

variable [Zero K] [Add K] [Mul K] [MulAdd K] [Capacity K] [NatCast K] [Calculus K]

theorem graph_of_checkShapes {k : BinaryKernel} {name : String} {l r : Formula K}
    {g g' : Graph K D} {fits : Except Error Unit} (hg : g.Confined ∅)
    (h : checkShapes k name l r g = some (fits, g')) : g' = g := by
  have hblank := (tidy_checkShapes k name l r ∅ g fits g' hg h).blank
  obtain ⟨x, g₁, hx, h⟩ := exists_of_bind h
  obtain ⟨y, g₂, hy, h⟩ := exists_of_bind h
  obtain ⟨vs, rfl⟩ := remembering_of_evaluate hx
  obtain ⟨ws, rfl⟩ := remembering_of_evaluate hy
  obtain ⟨_, g₃, hl, h⟩ := exists_of_bind h
  obtain ⟨_, g₄, hr, h⟩ := exists_of_bind h
  cases hl
  cases hr
  have hsame : g' = (((g.remembering vs).remembering ws).forget l).forget r := by
    split at h <;> cases h <;> rfl
  calc g' = { g with values := g'.values, tangents := g'.tangents } := by
        rw [hsame]
        rfl
    _ = g := by rw [hblank.1, hblank.2, ← hg.blank.1, ← hg.blank.2]

theorem quiet_checkShapes (k : BinaryKernel) (name : String) (l r : Formula K) :
    Quiet (fun _ => True) (checkShapes k name l r : GraphM K D (Except Error Unit)) := by
  intro g fits g' hg h
  obtain rfl := graph_of_checkShapes hg h
  exact ⟨.refl g', trivial⟩

theorem quiet_applyBinary {k : BinaryKernel} {c : Category} {checkedAs : Option String}
    {l r : Formula K} (hl : l.readSet ⊆ N) (hr : r.readSet ⊆ N) :
    Quiet (Lends N) (applyBinary k c checkedAs l r : GraphM K D (Except Error (Reply K))) := by
  have herror (e : Error) : Quiet (Lends N)
      (pure (.error e) : GraphM K D (Except Error (Reply K))) := quiet_pure (lends_error e)
  have hmake : Quiet (Lends N)
      (do return plain (.inst (.operation c (← operation (.binary k l r)))) :
        GraphM K D (Except Error (Reply K))) :=
    (quiet_operation (readSet_binary hl hr)).bind fun a ha =>
      quiet_pure (lends_plain ((nodes_operation c a).trans ha))
  unfold applyBinary
  cases checkedAs with
  | none =>
    refine (quiet_pure (P := fun _ => True) trivial).bind fun fits _ => ?_
    cases fits with
    | error e => exact herror e
    | ok _ => exact hmake
  | some name =>
    refine (quiet_checkShapes k name l r).bind fun fits _ => ?_
    cases fits with
    | error e => exact herror e
    | ok _ => exact hmake

theorem quiet_binary {k : BinaryKernel} {c : Category} {checkedAs : Option String}
    {l r : GraphM K D (Formula K)} (hl : Quiet (·.readSet ⊆ N) l)
    (hr : Quiet (·.readSet ⊆ N) r) :
    Quiet (Lends N) (do applyBinary k c checkedAs (← l) (← r)) :=
  hl.bind fun _ ha => hr.bind fun _ hb => quiet_applyBinary ha hb

end Operations

section Calls

variable {K D : Type} {N : Set NodeId} {deed : Deed D}

/-- Whether the call, where nothing is remembered, spares everything if it is refused, and
changes nothing if it makes a pending operation, which then refers to given nodes only. -/
def Harmless (N : Set NodeId) (deed : Deed D) (m : HostM K D (Except Error (Reply K))) : Prop :=
  ∀ (w : World K D) (r : Except Error (Reply K)) (w' : World K D), w.graph.Confined ∅ →
    m w = some (r, w') → (r.isOk = false → w.scene.Spares deed w'.scene) ∧
    ∀ reply a, r = .ok reply → reply.object.operation? = some a →
      w.graph.Relabels w'.graph ∧ w'.programs = w.programs ∧ Lends N r

theorem harmless_pure {r : Except Error (Reply K)} (hr : Lends N r) :
    Harmless N deed (pure r : HostM K D (Except Error (Reply K))) := by
  intro w y w' _ h
  cases h
  exact ⟨fun _ => ⟨.refl _, fun _ => .inl rfl⟩, fun _ _ _ _ => ⟨.refl _, rfl, hr⟩⟩

theorem harmless_quiet {m : GraphM K D (Except Error (Reply K))} (hm : Quiet (Lends N) m) :
    Harmless N deed (onGraph m) := by
  intro w r w' hw h
  obtain ⟨⟨y, g⟩, hy, h⟩ := Option.map_eq_some_iff.mp h
  cases h
  obtain ⟨hg, hlends⟩ := hm w.graph r g hw hy
  exact ⟨fun _ => ⟨hg, fun _ => .inl rfl⟩, fun _ _ _ _ => ⟨hg, rfl, hlends⟩⟩

/-- Whether the reply is there, and its object is no pending operation. -/
def Settles (r : Except Error (Reply K)) : Prop :=
  ∃ reply, r = .ok reply ∧ reply.object.operation? = none

theorem harmless_settled {m : HostM K D (Except Error (Reply K))}
    (hm : ∀ w r w', m w = some (r, w') → Settles r) : Harmless N deed m := by
  intro w r w' _ h
  obtain ⟨reply, rfl, hreply⟩ := hm w r w' h
  refine ⟨fun hok => (by cases hok), fun other a heq hother => ?_⟩
  cases heq
  rw [hreply] at hother
  cases hother

def Settling (m : GraphM K D (Except Error (Reply K))) : Prop :=
  ∀ g r g', m g = some (r, g') → Settles r

theorem settling_pure {reply : Reply K} (h : reply.object.operation? = none) :
    Settling (pure (.ok reply) : GraphM K D (Except Error (Reply K))) := by
  intro g r g' hr
  cases hr
  exact ⟨reply, rfl, h⟩

theorem settling_bind {α : Type} {m : GraphM K D α}
    {f : α → GraphM K D (Except Error (Reply K))} (hf : ∀ x, Settling (f x)) :
    Settling (m >>= f) := by
  intro g r g'' h
  obtain ⟨x, g', -, hx⟩ := exists_of_bind h
  exact hf x g' r g'' hx

theorem harmless_settling {m : GraphM K D (Except Error (Reply K))} (hm : Settling m) :
    Harmless N deed (onGraph m) := by
  refine harmless_settled fun w r w' h => ?_
  obtain ⟨⟨y, g⟩, hy, h⟩ := Option.map_eq_some_iff.mp h
  cases h
  exact hm _ r g hy

theorem harmless_addProgram (targets sources : List NodeId) :
    Harmless N deed (addProgram (Program.create targets sources) :
      HostM K D (Except Error (Reply K))) := by
  cases (Program.create targets sources : Except Error (Program D)) with
  | error e => exact harmless_pure (lends_error e)
  | ok p =>
    refine harmless_settled fun w r w' h => ?_
    cases h
    exact ⟨_, rfl, rfl⟩

theorem harmless_ask (id : ProgramId) {f : Program D → Graph K D → Object K}
    (hf : ∀ p g, (f p g).operation? = none) :
    Harmless N deed (onProgram id fun p => do return (p, plain (f p (← get))) :
      HostM K D (Except Error (Reply K))) := by
  refine harmless_settled fun w r w' h => ?_
  obtain ⟨p, q, g, -, hrun, -⟩ := exists_of_onProgram h
  cases hrun
  exact ⟨_, rfl, hf p _⟩

theorem harmless_unitReply {id : ProgramId}
    {m : Program D → GraphM K D (Program D × Except Error Unit)}
    (hdeed : deed.program? = some (.number id))
    (hm : ∀ p q e g g', m p g = some ((q, .error e), g') →
      g' = g ∧ q = { p with state := q.state }) :
    Harmless N deed (onProgram id fun p => do
      let (p, r) ← m p
      return (p, unitReply r) : HostM K D (Except Error (Reply K))) := by
  intro w r w' _ h
  obtain ⟨p, q, g, hp, hrun, hscene⟩ := exists_of_onProgram h
  obtain ⟨⟨q, r⟩, g, hrun, h⟩ := exists_of_bind hrun
  cases h
  cases r with
  | ok _ =>
    refine ⟨fun hok => (by cases hok), fun reply a heq hreply => ?_⟩
    cases heq
    cases hreply
  | error e =>
    refine ⟨fun _ => ?_, fun reply a heq => (by cases heq)⟩
    obtain ⟨rfl, hq⟩ := hm p q e w.graph g hrun
    rw [hscene]
    refine ⟨.refl _, fun f => ?_⟩
    by_cases hf : f = .number id
    · subst hf
      refine .inr ⟨hdeed, p, q.state, hp, ?_⟩
      rw [← hq]
      exact Function.update_self ..
    · exact .inl (Function.update_of_ne hf ..)

end Calls

section Run

variable {K D : Type} {N : Set NodeId} [Zero K] [One K] [Add K] [Mul K] [MulAdd K] [Capacity K]
  [NatCast K] [Calculus K] [Differential K D] [HostDerivative K D]

theorem harmless_run (b : Body) (args : Param.Carriers K b.params)
    (hargs : Object.nodesIn (Param.toObjects b.params args) ⊆ N) :
    Harmless N (b.deed args) (b.run args : HostM K D (Except Error (Reply K))) := by
  have hpass (x : Pass) (id : ProgramId) : Harmless N (.pass (.number id) x)
      (onProgram id fun p => do
        let (p, r) ← x.run p
        return (p, unitReply r) : HostM K D (Except Error (Reply K))) :=
    harmless_unitReply rfl fun p q e g g' h => Program.run_refused h
  have hvalue (v : Value K) : (Object.ofValue v).operation? = none := by
    unfold Object.ofValue
    split <;> rfl
  cases b with
  | newDefault c => exact harmless_settling (settling_bind fun n => settling_pure rfl)
  | newLiteral c => exact harmless_settling (settling_bind fun n => settling_pure rfl)
  | newComputed c =>
    exact harmless_settling (settling_bind fun e => settling_bind fun n => settling_pure rfl)
  | value c => exact harmless_settling (settling_bind fun x => settling_pure (hvalue _))
  | assignLiteral c => exact harmless_settling (settling_bind fun ns => settling_pure rfl)
  | assignExpression c =>
    exact harmless_settling (settling_bind fun e => settling_bind fun ns => settling_pure rfl)
  | setDerivative c d =>
    exact harmless_settling (settling_bind fun d => settling_bind fun _ => settling_pure rfl)
  | derivative c => exact harmless_settling (settling_bind fun d => settling_pure (hvalue _))
  | unary k c =>
    obtain ⟨x, _⟩ := args
    have hx : x.nodes ⊆ N := operand_nodes_subset hargs (List.mem_cons_self ..)
    refine harmless_quiet ((quiet_formulaOf hx).bind fun e he => ?_)
    refine (quiet_operation (a := .unary k e) he).bind fun a ha => quiet_pure ?_
    exact lends_plain ((nodes_operation _ a).trans ha)
  | binary k l r c operands name =>
    obtain ⟨op, hop⟩ := exists_operator k l r c operands name args
    obtain ⟨hl, hr⟩ := sides_among hop
    rw [Operator.run_eq hop]
    exact harmless_quiet (quiet_binary (quiet_side (hl.nodes hargs)) (quiet_side (hr.nodes hargs)))
  | newProgram => exact harmless_addProgram _ _
  | newBoundedProgram => exact harmless_addProgram _ _
  | compile =>
    have hcompile : Harmless N (.compile (.number args.1)) (onProgram args.1 fun p => do
        let (p, r) ← look p.compile
        return (p, unitReply r) : HostM K D (Except Error (Reply K))) := by
      refine harmless_unitReply rfl fun p q e g g' h => ?_
      have hrun : some (p.compile g, g) = some ((q, .error e), g') := h
      obtain ⟨hcompile, rfl⟩ := Prod.mk.inj (Option.some.inj hrun)
      have hstate := p.compile_fst g
      rw [hcompile] at hstate
      exact ⟨rfl, hstate⟩
    exact hcompile
  | compiled => exact harmless_ask args.1 fun p g => rfl
  | evaluate => exact hpass .evaluate args.1
  | pushTangent => exact hpass .pushTangent args.1
  | pushTangentAt => exact hpass (.pushTangentAt args.2.1) args.1
  | pullGradient => exact hpass .pullGradient args.1
  | pullGradientAt => exact hpass (.pullGradientAt args.2.1) args.1
  | programText =>
    have hask : Harmless N .nothing (onProgram args.1 fun p => do
        return (p, plain (.str ((fun (p : Program D) (_ : Graph K D) => p.text) p (← get)))) :
          HostM K D (Except Error (Reply K))) := harmless_ask args.1 fun p g => rfl
    exact hask
  | echo label params =>
    rw [run]
    split
    · exact harmless_pure (lends_error _)
    · refine harmless_settled fun w r w' h => ?_
      cases h
      exact ⟨_, rfl, rfl⟩

end Run

end Body

end GradientGraph
