import GradientGraph.Proofs.Host.Making
import GradientGraph.Proofs.Program.Deed

/-!
# The deeds of calls

Every function of a module does one deed, which can be read off the arguments, and the
reply refers to live nodes only.
-/

set_option autoImplicit false

namespace GradientGraph

open GradientGraph.Graph World

def World.program? {K D : Type} (w : World K D) : ProgramKey → Option (Program D)
  | .number id => w.programs[id]?
  | .name _ => none

def World.scene {K D : Type} (w : World K D) : Scene K D := ⟨w.graph, w.program?⟩

def Reply.nodes {K : Type} : Except Error (Reply K) → Set NodeId
  | .ok r => {n | n ∈ r.object.nodes}
  | .error _ => ∅

def Operand.nodes {K : Type} : Operand K → Set NodeId
  | .cell n => {n}
  | .term a => a.readSet

def Side.nodes {K : Type} : Side K → Set NodeId
  | .literal _ => ∅
  | .operand x => x.nodes

def Body.deed {K D : Type} [HostDerivative K D] :
    (b : Body) → Param.Carriers K b.params → Deed D
  | .assignLiteral _, (n, _, ()) => .assignLiteral n
  | .assignExpression _, (n, _, ()) => .assignFormula n
  | .setDerivative _ _, (n, v, ()) =>
    ((HostDerivative.ofValue v).map (.giveDerivative n)).getD .nothing
  | .compile, (id, ()) => .compile (.number id)
  | .evaluate, (id, ()) => .pass (.number id) .evaluate
  | .pushTangent, (id, ()) => .pass (.number id) .pushTangent
  | .pushTangentAt, (id, n, ()) => .pass (.number id) (.pushTangentAt n)
  | .pullGradient, (id, ()) => .pass (.number id) .pullGradient
  | .pullGradientAt, (id, n, ()) => .pass (.number id) (.pullGradientAt n)
  | _, _ => .nothing

section Programs

variable {K D α : Type}

theorem World.scene_set {w : World K D} {g : Graph K D} {id : ProgramId} {p : Program D}
    (hp : w.programs[id]? = some p) (q : Program D) :
    (World.mk g (w.programs.setIfInBounds id q)).scene =
      ⟨g, Function.update w.program? (.number id) (some q)⟩ := by
  obtain ⟨hid, -⟩ := Array.getElem?_eq_some_iff.mp hp
  refine congrArg (Scene.mk g) (funext fun f => ?_)
  cases f with
  | name f => rfl
  | number k =>
    by_cases hk : k = id
    · subst hk
      simp [World.program?, hid]
    · have hne : ProgramKey.number k ≠ .number id := fun heq => hk (by cases heq; rfl)
      rw [Function.update_of_ne hne]
      exact Array.getElem?_setIfInBounds_ne (Ne.symm hk)

theorem exists_of_onProgram {id : ProgramId} {m : Program D → GraphM K D (Program D × α)}
    {w w' : World K D} {x : α} (h : onProgram id m w = some (x, w')) :
    ∃ p q g, w.programs[id]? = some p ∧ m p w.graph = some ((q, x), g) ∧
      w'.scene = ⟨g, Function.update w.program? (.number id) (some q)⟩ := by
  obtain ⟨_, _, hget, h⟩ := exists_of_bind h
  cases hget
  cases hp : w.programs[id]? with
  | none =>
    simp only [hp] at h
    cases h
  | some p =>
    simp only [hp] at h
    obtain ⟨⟨q, y⟩, w₁, hrun, h⟩ := exists_of_bind h
    cases h
    obtain ⟨⟨_, g⟩, hy, hw₁⟩ := Option.map_eq_some_iff.mp hrun
    cases hw₁
    exact ⟨p, q, g, rfl, hy, scene_set hp q⟩

end Programs

section Rules

variable {K D : Type} {N : Set NodeId} {deed : Deed D} [Zero K] [One K] [Add K] [Mul K]
  [MulAdd K] [Capacity K] [NatCast K] [Calculus K] [Differential K D]

/-- Whether the call does the deed and leaves the scene whole. -/
def Acts (N : Set NodeId) (deed : Deed D) (m : HostM K D (Except Error (Reply K))) : Prop :=
  ∀ (w : World K D) (r : Except Error (Reply K)) (w' : World K D), w.scene.Whole N →
    m w = some (r, w') → deed.Does r.isOk w.scene w'.scene ∧ w'.scene.Whole (Reply.nodes r ∪ N)

theorem acts_pure {r : Except Error (Reply K)} (hr : Reply.nodes r ⊆ N) :
    Acts N .nothing (pure r : HostM K D (Except Error (Reply K))) := by
  intro w y w' hw h
  cases h
  exact ⟨Deed.Mild.does trivial (.refl _ _) fun _ _ hp => hp,
    hw.mono (Set.union_subset hr (subset_refl N))⟩

theorem acts_onGraph (hdeed : deed.program? = none) {m : GraphM K D (Except Error (Reply K))}
    (hm : ∀ (S : Set Nat) (g : Graph K D) (r : Except Error (Reply K)) (g' : Graph K D),
      g.Whole S N → m g = some (r, g') →
        g.Grows (deed.rebuilt g) (deed.touched r.isOk) g' ∧
        (∀ n d, deed = .giveDerivative n d → g'.derivative? n = some ⟨g.nextStamp, d⟩) ∧
        g'.Whole S (Reply.nodes r ∪ N)) : Acts N deed (onGraph m) := by
  intro w r w' hw h
  obtain ⟨⟨y, g⟩, hy, h⟩ := Option.map_eq_some_iff.mp h
  cases h
  obtain ⟨hgrows, hgives, hwhole⟩ := hm _ w.graph r g hw hy
  exact ⟨Deed.does_graph hdeed hgrows hgives fun _ _ hp => hp, hwhole⟩

theorem acts_builds {m : GraphM K D (Except Error (Reply K))}
    (hm : ∀ S, Builds S N ∅ ∅ m Reply.nodes) : Acts N .nothing (onGraph m) := by
  refine acts_onGraph rfl fun S g r g' hg h => ?_
  obtain ⟨hgrows, hwhole⟩ := hm S g r g' hg h
  exact ⟨hgrows, fun _ _ h => (by cases h), hwhole⟩

end Rules

namespace Body

section Replies

variable {K : Type} {N : Set NodeId}

theorem nodes_operation (c : Category) (a : Formula K) :
    Reply.nodes (plain (.inst (.operation c a))) ⊆ a.readSet :=
  fun _ hn => Formula.mem_nodes.mp hn

theorem nodes_unitReply (r : Except Error Unit) :
    Reply.nodes (unitReply r : Except Error (Reply K)) ⊆ N := by
  intro n hn
  cases r <;> cases hn

theorem isOk_unitReply (r : Except Error Unit) :
    (unitReply r : Except Error (Reply K)).isOk = r.isOk := by
  cases r <;> rfl

variable [Zero K]

theorem nodes_ofValue (v : Value K) : Reply.nodes (plain (.ofValue v)) ⊆ N := by
  intro n hn
  obtain ⟨i, hi, -⟩ := Object.has_of_mem_nodes hn
  exact absurd hi (Param.has_ofValue v)

theorem operand_nodes_subset {c : Category} {x : Operand K} {os : List (Object K)}
    (h : Object.nodesIn os ⊆ N) (hx : Param.toObject (.expression c) x ∈ os) : x.nodes ⊆ N := by
  intro n hn
  refine h ⟨_, hx, ?_⟩
  cases x with
  | cell m =>
    obtain rfl := hn
    exact List.mem_singleton.mpr rfl
  | term a => exact Formula.mem_nodes.mpr hn

theorem variable_mem {c : Category} {n : NodeId} {os : List (Object K)}
    (h : Object.nodesIn os ⊆ N) (hn : Param.toObject (.variableOf c) n ∈ os) : n ∈ N :=
  h ⟨_, hn, List.mem_singleton.mpr rfl⟩

end Replies

end Body

theorem Side.Among.nodes {K : Type} [Zero K] {N : Set NodeId} {os : List (Object K)}
    {x : Side K} (h : x.Among os) (hos : Object.nodesIn os ⊆ N) : x.nodes ⊆ N := by
  cases x with
  | literal v => exact Set.empty_subset N
  | operand x =>
    obtain ⟨c, hx⟩ := h
    exact Body.operand_nodes_subset hos hx

namespace Body

section Operations

variable {K D : Type} {S : Set Nat} {N T : Set NodeId}

theorem builds_formulaOf {x : Operand K} (hx : x.nodes ⊆ N) :
    Builds S N ∅ T (formulaOf x : GraphM K D (Formula K)) Formula.readSet := by
  cases x with
  | cell n => exact builds_read (hx rfl)
  | term a => exact builds_pure hx

theorem builds_side {x : Side K} (hx : x.nodes ⊆ N) :
    Builds S N ∅ T (x.formula : GraphM K D (Formula K)) Formula.readSet := by
  cases x with
  | literal v => exact builds_literal v
  | operand x => exact builds_formulaOf hx

variable [Zero K] [Add K] [Mul K] [MulAdd K] [Capacity K] [NatCast K] [Calculus K]

theorem works_checkShapes (k : BinaryKernel) (name : String) (l r : Formula K) :
    Labours S T (checkShapes k name l r : GraphM K D (Except Error Unit)) :=
  (works_evaluate _).before fun _ => (works_evaluate _).before fun _ =>
    (works_forget l).before fun _ => (works_forget r).before fun _ =>
      works_ite (works_pure (Set.empty_subset S)) (works_pure (Set.empty_subset S))

theorem builds_applyBinary {k : BinaryKernel} {c : Category} {checkedAs : Option String}
    {l r : Formula K} (hl : l.readSet ⊆ N) (hr : r.readSet ⊆ N) :
    Builds S N ∅ T (applyBinary k c checkedAs l r : GraphM K D (Except Error (Reply K)))
      Reply.nodes := by
  have herror (e : Error) : Builds S N ∅ T
      (pure (.error e) : GraphM K D (Except Error (Reply K))) Reply.nodes :=
    builds_pure (Set.empty_subset N)
  have hmake : Builds S N ∅ T
      (do return plain (.inst (.operation c (← operation (.binary k l r)))) :
        GraphM K D (Except Error (Reply K))) Reply.nodes :=
    (builds_share (readSet_binary hl hr)).map (fun a => plain (.inst (.operation c a)))
      fun a => (nodes_operation c a).trans Set.subset_union_left
  unfold applyBinary
  cases checkedAs with
  | none =>
    have hfits : Builds S N ∅ T (pure (.ok ()) : GraphM K D (Except Error Unit)) fun _ => ∅ :=
      builds_pure (Set.empty_subset N)
    refine hfits.before fun fits => ?_
    cases fits with
    | error e => exact herror e
    | ok _ => exact hmake
  | some name =>
    refine ((works_checkShapes k name l r).builds (silent_checkShapes k name l r)).before
      fun fits => ?_
    cases fits with
    | error e => exact herror e
    | ok _ => exact hmake

theorem builds_binary {k : BinaryKernel} {c : Category} {checkedAs : Option String}
    {l r : GraphM K D (Formula K)} (hl : Builds S N ∅ T l Formula.readSet)
    (hr : ∀ a : Formula K, Builds S (a.readSet ∪ N) ∅ T r Formula.readSet) :
    Builds S N ∅ T (do applyBinary k c checkedAs (← l) (← r)) Reply.nodes :=
  hl.bind fun a => (hr a).bind fun _ =>
    builds_applyBinary (Set.subset_union_left.trans Set.subset_union_right) Set.subset_union_left

end Operations

section Calls

variable {K D : Type} {N : Set NodeId} [Zero K] [One K] [Add K] [Mul K]
  [MulAdd K] [Capacity K] [NatCast K] [Calculus K] [Differential K D]

theorem acts_silent {α : Type} {m : GraphM K D α} {Q : α → Set Nat} (hm : ∀ S, Works S ∅ m Q)
    (hs : Silent m) {f : α → Object K} (hf : ∀ x, Reply.nodes (plain (f x)) ⊆ N) :
    Acts N .nothing (onGraph do return plain (f (← m)) :
      HostM K D (Except Error (Reply K))) :=
  acts_builds fun S => ((hm S).builds hs).map (fun x => plain (f x))
    fun x => (hf x).trans Set.subset_union_right

theorem acts_newVariable (c : Category) (v : Value K) :
    Acts N .nothing (onGraph do return plain (.inst (.var c (← newVariable v))) :
      HostM K D (Except Error (Reply K))) :=
  acts_builds fun _ => (builds_newVariable v).map (fun n => plain (.inst (.var c n)))
    fun _ _ hm => .inl (List.mem_singleton.mp hm)

theorem acts_addProgram (targets sources : List NodeId) :
    Acts N .nothing (addProgram (Program.create targets sources) :
      HostM K D (Except Error (Reply K))) := by
  cases hp : (Program.create targets sources : Except Error (Program D)) with
  | error e => exact acts_pure (Set.empty_subset N)
  | ok q =>
    intro w r w' hw h
    cases h
    have hprogram (f : ProgramKey) (p : Program D)
        (h : World.program? { w with programs := w.programs.push q } f = some p) :
        w.program? f = some p ∨ p.seeds = [] := by
      cases f with
      | name f => cases h
      | number id =>
        have h : (w.programs.push q)[id]? = some p := h
        rw [Array.getElem?_push] at h
        split at h
        · cases h
          exact .inr (Program.seeds_of_create hp)
        · exact .inl h
    refine ⟨Deed.Mild.does trivial (.refl _ _) fun f p h => ?_,
      Graph.Whole.mono hw (Scene.stamps_subset hprogram)
        (Set.union_subset (fun n hn => by cases hn) (subset_refl N))⟩
    cases f with
    | name f => cases h
    | number id =>
      have h : w.programs[id]? = some p := h
      obtain ⟨hid, -⟩ := Array.getElem?_eq_some_iff.mp h
      exact (Array.getElem?_push_lt hid).trans ((Array.getElem?_eq_getElem hid).symm.trans h)

theorem acts_ask (id : ProgramId) {f : Program D → Graph K D → Object K}
    (hf : ∀ p g, Reply.nodes (plain (f p g)) ⊆ N) :
    Acts N .nothing (onProgram id fun p => do return (p, plain (f p (← get))) :
      HostM K D (Except Error (Reply K))) := by
  intro w r w' hw h
  obtain ⟨p, q, g, hp, hrun, hscene⟩ := exists_of_onProgram h
  cases hrun
  have hsame : Function.update w.program? (.number id) (some p) = w.program? :=
    (Function.update_eq_self_iff).mpr hp.symm
  rw [hscene, hsame]
  exact ⟨Deed.Mild.does trivial (.refl _ _) fun _ _ h => h,
    hw.mono (Set.union_subset (hf p _) (subset_refl N))⟩

theorem acts_compile (id : ProgramId) :
    Acts N (.compile (.number id)) (onProgram id fun p => do
      let (p, r) ← look p.compile
      return (p, unitReply r) : HostM K D (Except Error (Reply K))) := by
  intro w r w' hw h
  obtain ⟨p, q, g, hp, hrun, hscene⟩ := exists_of_onProgram h
  cases hrun
  have hprogram : w.scene.program? (.number id) = some p := hp
  have hdoes := Deed.does_compile hprogram
  have hwhole := Scene.Whole.compile hw hprogram
  rw [hscene, isOk_unitReply]
  exact ⟨hdoes, hwhole.mono (Set.union_subset (nodes_unitReply _) (subset_refl N))⟩

theorem exists_of_pass {x : Pass} {id : ProgramId} {w w' : World K D}
    {y : Except Error (Reply K)}
    (h : (onProgram id fun p => do
      let (p, r) ← x.run p
      return (p, unitReply r) : HostM K D (Except Error (Reply K))) w = some (y, w')) :
    ∃ p q r g, w.scene.program? (.number id) = some p ∧ x.run p w.graph = some ((q, r), g) ∧
      y = unitReply r ∧ w'.scene = ⟨g, Function.update w.program? (.number id) (some q)⟩ := by
  obtain ⟨p, q, g, hp, hrun, hscene⟩ := exists_of_onProgram h
  obtain ⟨⟨q, r⟩, g, hrun, h⟩ := exists_of_bind hrun
  cases h
  exact ⟨p, q, r, g, hp, hrun, rfl, hscene⟩

theorem acts_pass (x : Pass) (id : ProgramId) :
    Acts N (.pass (.number id) x) (onProgram id fun p => do
      let (p, r) ← x.run p
      return (p, unitReply r) : HostM K D (Except Error (Reply K))) := by
  intro w r w' hw h
  obtain ⟨p, q, r, g, hprogram, hrun, rfl, hscene⟩ := exists_of_pass h
  rw [hscene, isOk_unitReply]
  exact ⟨Deed.does_pass hw hprogram hrun,
    (Scene.Whole.pass hw hprogram hrun).mono
      (Set.union_subset (nodes_unitReply _) (subset_refl N))⟩

theorem acts_assignLiteral {n : NodeId} (hn : n ∈ N) (v : Value K) :
    Acts N (.assignLiteral n) (onGraph do
      return .ok { object := .none, displaced := ← Graph.assignLiteral n v } :
        HostM K D (Except Error (Reply K))) := by
  refine acts_onGraph rfl fun S g r g' hg h => ?_
  obtain ⟨displaced, _, hrun, h⟩ := exists_of_bind h
  cases h
  obtain ⟨hgrows, hwhole⟩ := hg.assignLiteral hn hrun
  refine ⟨hgrows, fun _ _ h => (by cases h), hwhole.mono (subset_refl S) ?_⟩
  exact Set.union_subset (fun _ hn => by cases hn) (subset_refl N)

theorem acts_assignExpression {n : NodeId} (hn : n ∈ N) {x : Operand K} (hx : x.nodes ⊆ N) :
    Acts N (.assignFormula n) (onGraph do
      let e ← formulaOf x
      return .ok { object := .none, displaced := ← Graph.assignFormula n e } :
        HostM K D (Except Error (Reply K))) := by
  refine acts_onGraph rfl fun S g r g' hg h => ?_
  have hbuilds : Builds S N {n} ∅ (do
      let e ← formulaOf x
      return .ok { object := .none, displaced := ← Graph.assignFormula n e } :
        GraphM K D (Except Error (Reply K))) Reply.nodes :=
    (builds_formulaOf hx).bind fun e =>
      (builds_assignFormula (.inr hn) Set.subset_union_left).map
        (fun displaced => Except.ok ({ object := .none, displaced } : Reply K))
        fun _ _ hm => by cases hm
  obtain ⟨hgrows, hwhole⟩ := hbuilds g r g' hg h
  exact ⟨hgrows, fun _ _ h => (by cases h), hwhole⟩

end Calls

section Run

variable {K D : Type} {N : Set NodeId} [Zero K] [One K] [Add K] [Mul K] [MulAdd K] [Capacity K]
  [NatCast K] [Calculus K] [Differential K D] [HostDerivative K D]

theorem acts_setDerivative {n : NodeId} (hn : n ∈ N) (v : Value K) :
    Acts N (((HostDerivative.ofValue v).map (.giveDerivative n)).getD .nothing : Deed D)
      (onGraph do
        giveDerivative n (← ofOption (HostDerivative.ofValue v))
        return plain .none : HostM K D (Except Error (Reply K))) := by
  cases hd : (HostDerivative.ofValue v : Option D) with
  | none =>
    intro w r w' _ h
    obtain ⟨_, hrun, -⟩ := Option.map_eq_some_iff.mp h
    cases hrun
  | some d =>
    refine acts_onGraph rfl fun S g r g' hg h => ?_
    have hgive : Labours S {n} (giveDerivative n d : GraphM K D Unit) :=
      works_giveDerivative (Set.mem_singleton n) d
    obtain ⟨_, _, hpure, h⟩ := exists_of_bind h
    cases hpure
    obtain ⟨u, g', hrun, h⟩ := exists_of_bind h
    cases h
    obtain ⟨hgrows, hwhole⟩ := hgive.builds (silent_giveDerivative n d) g u g' hg hrun
    refine ⟨hgrows, fun m c h => ?_, hwhole.mono (subset_refl S) ?_⟩
    · cases h
      cases hrun
      rw [derivative?_setDerivative (g := { g with nextStamp := g.nextStamp + 1 }) (hg.held n hn),
        if_pos rfl]
    · exact Set.union_subset_union_left N fun _ hn => by cases hn

theorem acts_run (b : Body) (args : Param.Carriers K b.params)
    (hargs : Object.nodesIn (Param.toObjects b.params args) ⊆ N) :
    Acts N (b.deed args) (b.run args : HostM K D (Except Error (Reply K))) := by
  cases b with
  | newDefault c => exact acts_newVariable c _
  | newLiteral c => exact acts_newVariable c _
  | newComputed c =>
    obtain ⟨x, _⟩ := args
    refine acts_builds fun S => ?_
    refine (builds_formulaOf (operand_nodes_subset hargs (List.mem_cons_self ..))).bind fun e => ?_
    exact (builds_newComputed Set.subset_union_left).map (fun n => plain (.inst (.var c n)))
      fun n m hm => .inl (List.mem_singleton.mp hm)
  | value c =>
    exact acts_silent (fun S => works_cell args.1) (silent_cell _) fun c => nodes_ofValue c.value
  | assignLiteral c =>
    obtain ⟨n, v, _⟩ := args
    exact acts_assignLiteral (variable_mem hargs (List.mem_cons_self ..)) v
  | assignExpression c =>
    obtain ⟨n, x, _⟩ := args
    exact acts_assignExpression (variable_mem hargs (List.mem_cons_self ..))
      (operand_nodes_subset hargs (List.mem_cons_of_mem _ (List.mem_cons_self ..)))
  | setDerivative c d =>
    obtain ⟨n, v, _⟩ := args
    exact acts_setDerivative (variable_mem hargs (List.mem_cons_self ..)) v
  | derivative c =>
    have hworks (S : Set Nat) : Labours S ∅ (reportedDerivative args.1 : GraphM K D D) :=
      works_get fun _ => works_pure (Set.empty_subset _)
    exact acts_silent hworks (silent_get.bind fun _ => silent_pure _) fun d => nodes_ofValue _
  | unary k c =>
    obtain ⟨x, _⟩ := args
    refine acts_builds fun S => ?_
    refine (builds_formulaOf (operand_nodes_subset hargs (List.mem_cons_self ..))).bind fun e => ?_
    have hreads : (Formula.unary k e).readSet ⊆ e.readSet ∪ N := Set.subset_union_left
    exact (builds_share hreads).map (fun a => plain (.inst (.operation (k.category c) a)))
      fun a => (nodes_operation _ a).trans Set.subset_union_left
  | binary k l r c operands name =>
    obtain ⟨op, hop⟩ := exists_operator k l r c operands name args
    obtain ⟨hl, hr⟩ := sides_among hop
    rw [Operator.run_eq hop]
    exact acts_builds fun _ => builds_binary (builds_side (hl.nodes hargs)) fun _ =>
      builds_side ((hr.nodes hargs).trans Set.subset_union_right)
  | newProgram => exact acts_addProgram _ _
  | newBoundedProgram => exact acts_addProgram _ _
  | compile => exact acts_compile _
  | compiled => exact acts_ask _ fun p g n hn => by cases hn
  | evaluate => exact acts_pass .evaluate args.1
  | pushTangent => exact acts_pass .pushTangent args.1
  | pushTangentAt => exact acts_pass (.pushTangentAt args.2.1) args.1
  | pullGradient => exact acts_pass .pullGradient args.1
  | pullGradientAt => exact acts_pass (.pullGradientAt args.2.1) args.1
  | programText =>
    have hask : Acts N .nothing (onProgram args.1 fun p => do
        return (p, plain (.str ((fun (p : Program D) (_ : Graph K D) => p.text) p (← get)))) :
          HostM K D (Except Error (Reply K))) := acts_ask args.1 fun p g n hn => by cases hn
    exact hask
  | echo label params =>
    have hecho : Reply.nodes (plain (.tuple (.str label :: Param.toObjects params args))) ⊆ N := by
      intro n hn
      obtain ⟨o, ho, hn⟩ := Object.mem_nodesOfList.mp hn
      rcases List.mem_cons.mp ho with rfl | ho
      · cases hn
      · exact hargs ⟨o, ho, hn⟩
    rw [run]
    split
    · exact acts_pure (Set.empty_subset N)
    · exact acts_pure hecho

end Run

end Body

end GradientGraph
