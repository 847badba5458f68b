import GradientGraph.Proofs.Graph.Owned
import GradientGraph.Proofs.Host.Offer
import GradientGraph.Proofs.Session.Edges

/-!
# Owners in a session

Variables come into being and lose their formulas in a few functions only. What these hand
back is stored or given up before the step ends, so that between two steps every node is
owned by a stored object or by the formula of a variable. When the stored variables are
read what a call hands back is not looked at, which is why a module must not make variables
where it is meant to read them.
-/

set_option autoImplicit false

namespace GradientGraph

open GradientGraph.Graph World

/-- Whether the function neither makes a variable nor assigns one. -/
def Body.isInert : Body → Bool
  | .newDefault _ | .newLiteral _ | .newComputed _ | .assignLiteral _ | .assignExpression _ => false
  | _ => true

def Reply.owners {K : Type} : Except Error (Reply K) → Set NodeId
  | .ok r => {n | n ∈ r.displaced} ∪ {n | n ∈ r.object.nodes}
  | .error _ => ∅

namespace Module

/-- Whether the module neither makes nor assigns variables by the names under which they
are read. -/
structure Reads (m : Module) : Prop where
  function : ∀ s, m.functions.find? "d" = some s → ∀ b ∈ s.bodies, b.isInert
  method : ∀ className info s, m.classes.find? className = some info →
    info.methods.find? "__call__" = some s → ∀ b ∈ s.bodies, b.isInert

/-- The functions by which a module reads variables. -/
def readers (m : Module) : List Body :=
  ((m.functions.find? "d").map (·.bodies)).getD [] ++
    m.classes.flatMap fun c => ((c.2.methods.find? "__call__").map (·.bodies)).getD []

theorem reads_of_readers {m : Module} (h : m.readers.all Body.isInert) : m.Reads := by
  rw [List.all_eq_true] at h
  constructor
  · intro s hs b hb
    refine h b (List.mem_append_left _ ?_)
    rw [hs]
    exact hb
  · intro className info s hinfo hs b hb
    refine h b (List.mem_append_right _ (List.mem_flatMap.mpr ⟨_, Table.mem_of_find? hinfo, ?_⟩))
    rw [hs]
    exact hb

theorem reads_new (name doc : String) : Reads { name, doc } := reads_of_readers rfl

theorem reads_scalarModule : scalarModule.Reads := reads_of_readers (by decide +kernel)

theorem reads_arrayModule : arrayModule.Reads := reads_of_readers (by decide +kernel)

namespace Reads

variable {m : Module} {b : Body}

theorem define (hm : m.Reads) (name : String) (hb : b.isInert) : (m.define name b).Reads where
  function := by
    intro s hs c hc
    rw [Module.define, Table.find?_alter] at hs
    split at hs
    · rename_i hname
      cases hs
      obtain rfl | ⟨s, hs, hc⟩ := mem_addOverload hc
      · exact hb
      · exact hm.function s (hname ▸ hs) c hc
    · exact hm.function s hs c hc
  method := hm.method

theorem defineMethod (hm : m.Reads) (className name : String) (hb : b.isInert) :
    (m.defineMethod className name b).Reads where
  function := hm.function
  method := by
    intro k info s hinfo hs c hc
    rw [Module.defineMethod, Table.find?_alter] at hinfo
    split at hinfo
    · cases hinfo
      have former {t : OverloadSet}
          (h : ((m.classes.find? className).getD {}).methods.find? "__call__" = some t) :
          ∃ info, m.classes.find? className = some info ∧
            info.methods.find? "__call__" = some t := by
        cases hfind : m.classes.find? className with
        | none =>
          rw [hfind] at h
          cases h
        | some info =>
          rw [hfind] at h
          exact ⟨info, rfl, h⟩
      simp only [Table.find?_alter] at hs
      split at hs
      · rename_i hname
        cases hs
        obtain rfl | ⟨s, hs, hc⟩ := mem_addOverload hc
        · exact hb
        · obtain ⟨info, hinfo, hs⟩ := former (hname ▸ hs)
          exact hm.method _ info s hinfo hs c hc
      · obtain ⟨info, hinfo, hs⟩ := former hs
        exact hm.method _ info s hinfo hs c hc
    · exact hm.method k info s hinfo hs c hc

theorem addClass (hm : m.Reads) (name : String) (bases : List String) (doc : String) :
    (m.addClass name bases doc).Reads where
  function := hm.function
  method := by
    intro k info s hinfo hs c hc
    rw [Module.addClass, Table.find?_alter] at hinfo
    split at hinfo
    · cases hinfo
      cases hfind : m.classes.find? name with
      | none =>
        rw [hfind] at hs
        cases hs
      | some info =>
        rw [hfind] at hs
        exact hm.method name info s hfind hs c hc
    · exact hm.method k info s hinfo hs c hc

section Selection

variable {K : Type} [Zero K] {os : List (Object K)} {c : Call K}

theorem of_function (hm : m.Reads) (h : m.selectFunction? "d" os = some c) :
    c.body.isInert := by
  obtain ⟨s, hs, hc⟩ := Option.bind_eq_some_iff.mp h
  exact hm.function s hs _ (OverloadSet.select_cases hc).1

theorem of_method (hm : m.Reads) {receiver : Object K}
    (h : m.selectMethod? receiver "__call__" os = some c) : c.body.isInert := by
  obtain ⟨i, -, h⟩ := Option.bind_eq_some_iff.mp h
  obtain ⟨s, hs, hc⟩ := Option.bind_eq_some_iff.mp h
  obtain ⟨className, -, hclass⟩ := List.exists_of_findSome?_eq_some hs
  obtain ⟨info, hinfo, hmethod⟩ := Option.bind_eq_some_iff.mp hclass
  exact hm.method className info s hinfo hmethod _ (OverloadSet.select_cases hc).1

end Selection

end Reads

end Module

section Rules

variable {K D α β : Type} {N : Set NodeId}

def Rests (N : Set NodeId) (m : HostM K D α) : Prop :=
  ∀ (w : World K D) (x : α) (w' : World K D), w.scene.Whole N → m w = some (x, w') →
    w.graph.Touches Set.univ w'.graph

/-- Whether the call leaves no node without an owner, if its reply counts as one. -/
def Vouches (N : Set NodeId) (m : HostM K D (Except Error (Reply K))) : Prop :=
  ∀ (w : World K D) (r : Except Error (Reply K)) (w' : World K D), w.scene.Whole N →
    w.graph.Owned N → m w = some (r, w') → w'.graph.Owned (Reply.owners r ∪ N)

theorem rests_same {m : HostM K D α} (hm : ∀ w x w', m w = some (x, w') → w'.graph = w.graph) :
    Rests N m := by
  intro w x w' _ h
  rw [hm w x w' h]
  exact .refl _ _

theorem rests_pure (x : α) : Rests N (pure x : HostM K D α) :=
  rests_same fun w y w' h => by cases h; rfl

theorem rests_onGraph {m : GraphM K D α} {T : Set NodeId} (hm : ∀ S, Labours S T m) :
    Rests N (onGraph m) := by
  intro w x w' hw h
  obtain ⟨⟨y, g⟩, hy, h⟩ := Option.map_eq_some_iff.mp h
  cases h
  exact (hm _ w.graph x g hw.dated hy).1.mono (Set.subset_univ T)

theorem rests_ask (id : ProgramId) {f : Program D → Graph K D → Program D × α} :
    Rests N (onProgram id fun p => do return f p (← get) : HostM K D α) := by
  refine rests_same fun w x w' h => ?_
  obtain ⟨p, q, g, -, hrun, hscene⟩ := exists_of_onProgram h
  obtain ⟨-, rfl⟩ := Prod.mk.inj (Option.some.inj hrun)
  exact congrArg Scene.graph hscene

theorem Rests.vouches {m : HostM K D (Except Error (Reply K))} (hm : Rests N m) : Vouches N m := by
  intro w r w' hw howned h
  exact (howned.touches (hm w r w' hw h)).mono Set.subset_union_right

theorem vouches_onGraph {m : GraphM K D (Except Error (Reply K))}
    (hm : ∀ S, Accounts S N m Reply.owners) : Vouches N (onGraph m) := by
  intro w r w' hw howned h
  obtain ⟨⟨y, g⟩, hy, h⟩ := Option.map_eq_some_iff.mp h
  cases h
  exact hm _ w.graph r g hw.packed hw.dated howned hy

variable [Zero K] [One K] [Add K] [Mul K] [MulAdd K] [Capacity K] [NatCast K] [Calculus K]
  [Differential K D]

theorem Pass.touches_run {S : Set Nat} {x : Pass} {p q : Program D} {g g' : Graph K D}
    {r : Except Error Unit} (hg : g.Dated S) (hp : seedStamps p.seeds ⊆ S)
    (h : x.run p g = some ((q, r), g')) : g.Touches Set.univ g' := by
  rcases Program.run_cases h with ⟨-, rfl, rfl⟩ | ⟨p', plan, -, hp', -, -, hbody⟩
  · exact .refl _ _
  · have hseeds : seedStamps p'.seeds ⊆ S := by
      have hready := p.ready_seeds g
      rw [hp'] at hready
      rwa [hready.1]
    exact (x.works_body hseeds plan g q g' hg hbody).1.mono (Set.subset_univ _)

theorem rests_pass (x : Pass) (id : ProgramId) :
    Rests N (onProgram id fun p => do
      let (p, r) ← x.run p
      return (p, Body.unitReply r) : HostM K D (Except Error (Reply K))) := by
  intro w r w' hw h
  obtain ⟨p, q, r, g, hprogram, hrun, rfl, hscene⟩ := Body.exists_of_pass h
  have hgraph : w'.graph = g := congrArg Scene.graph hscene
  rw [hgraph]
  exact Pass.touches_run hw.dated (Scene.seedStamps_subset hprogram) hrun

theorem Rests.bind {m : HostM K D α} {f : α → HostM K D β} (hm : Rests N m) (hi : Idles N m)
    (hf : ∀ x, Rests N (f x)) : Rests N (m >>= f) := by
  intro w y w'' hw h
  obtain ⟨x, w', hx, hy⟩ := exists_of_bind h
  exact (hm w x w' hw hx).trans (hf x w' y w'' (hi w x w' hw hx).2 hy)

end Rules

namespace Body

section Operations

variable {K D : Type} {N : Set NodeId}

theorem rests_addProgram (p : Except Error (Program D)) :
    Rests N (addProgram p : HostM K D (Except Error (Reply K))) := by
  cases p with
  | error e => exact rests_pure _
  | ok p => exact rests_same fun w x w' h => by cases h; rfl

theorem rests_binary [Zero K] [Add K] [Mul K] [MulAdd K] [Capacity K] [NatCast K] [Calculus K]
    {k : BinaryKernel} {c : Category} {checkedAs : Option String} (l r : Side K) :
    Rests N (onGraph do applyBinary k c checkedAs (← l.formula) (← r.formula) :
      HostM K D (Except Error (Reply K))) :=
  rests_onGraph (T := ∅) fun _ => (works_side l).before fun a => (works_side r).before fun b =>
    works_applyBinary k c checkedAs a b

end Operations

section Run

variable {K D : Type} {N : Set NodeId} [Zero K] [One K] [Add K] [Mul K] [MulAdd K] [Capacity K]
  [NatCast K] [Calculus K] [Differential K D] [HostDerivative K D]

theorem rests_run (b : Body) (hb : b.isInert) (args : Param.Carriers K b.params) :
    Rests N (b.run args : HostM K D (Except Error (Reply K))) := by
  cases b with
  | newDefault c => cases hb
  | newLiteral c => cases hb
  | newComputed c => cases hb
  | assignLiteral c => cases hb
  | assignExpression c => cases hb
  | value c =>
    exact rests_onGraph (T := ∅) fun S =>
      (works_cell args.1).bind fun _ => works_pure (Set.empty_subset _)
  | setDerivative c d =>
    exact rests_onGraph (T := {args.1}) fun S => (works_ofOption _).before fun d =>
      (works_giveDerivative (Set.mem_singleton _) d).before fun _ => works_pure (Set.empty_subset S)
  | derivative c =>
    exact rests_onGraph (T := ∅) fun S => works_get fun _ => works_pure (Set.empty_subset _)
  | unary k c =>
    exact rests_onGraph (T := ∅) fun S => (works_formulaOf args.1).before fun e =>
      (works_operation _).before fun _ => works_pure (Set.empty_subset S)
  | binary k l r c operands name =>
    obtain ⟨op, hop⟩ := exists_operator k l r c operands name args
    rw [Operator.run_eq hop]
    exact rests_binary op.left op.right
  | newProgram => exact rests_addProgram _
  | newBoundedProgram => exact rests_addProgram _
  | compile => exact rests_ask args.1
  | compiled => exact rests_ask args.1
  | evaluate => exact rests_pass .evaluate args.1
  | pushTangent => exact rests_pass .pushTangent args.1
  | pushTangentAt => exact rests_pass (.pushTangentAt args.2.1) args.1
  | pullGradient => exact rests_pass .pullGradient args.1
  | pullGradientAt => exact rests_pass (.pullGradientAt args.2.1) args.1
  | programText =>
    have hask : Rests N (onProgram args.1 fun p => do
        return (fun (p : Program D) (_ : Graph K D) => (p, plain (.str p.text))) p (← get) :
          HostM K D (Except Error (Reply K))) := rests_ask args.1
    exact hask
  | echo label params =>
    rw [run]
    split <;> exact rests_pure _

/-- Every function hands back what it leaves without an owner. -/
theorem vouches_run (b : Body) (args : Param.Carriers K b.params) :
    Vouches N (b.run args : HostM K D (Except Error (Reply K))) := by
  by_cases hb : b.isInert
  · exact (b.rests_run hb args).vouches
  · have hmade (c : Category) (n : NodeId) :
        {n} ⊆ Reply.owners (plain (.inst (.var c n)) : Except Error (Reply K)) :=
      fun m hm => .inr (List.mem_singleton.mpr hm)
    have hgiven (displaced : List NodeId) : {m | m ∈ displaced} ⊆
        Reply.owners (.ok ({ object := .none, displaced } : Reply K)) :=
      Set.subset_union_left
    cases b with
    | newDefault c =>
      exact vouches_onGraph fun S =>
        (accounts_newVariable _).map (fun n => plain (.inst (.var c n))) (hmade c)
    | newLiteral c =>
      exact vouches_onGraph fun S =>
        (accounts_newVariable _).map (fun n => plain (.inst (.var c n))) (hmade c)
    | newComputed c =>
      exact vouches_onGraph fun S => (works_formulaOf (T := ∅) args.1).accounts_bind fun e =>
        (accounts_newComputed e).map (fun n => plain (.inst (.var c n))) (hmade c)
    | assignLiteral c =>
      exact vouches_onGraph fun S => (accounts_assignLiteral args.1 args.2.1).map
        (fun displaced => Except.ok ({ object := .none, displaced } : Reply K)) hgiven
    | assignExpression c =>
      exact vouches_onGraph fun S => (works_formulaOf (T := ∅) args.2.1).accounts_bind fun e =>
        (accounts_assignFormula args.1 e).map
          (fun displaced => Except.ok ({ object := .none, displaced } : Reply K)) hgiven
    | _ => exact absurd rfl hb

end Run

end Body

namespace Session

section Objects

variable {K D : Type} {s : Session K D}

/-- What holds of a session that started with a module that reads variables as it should. -/
structure Accounted (s : Session K D) : Prop where
  module : s.module.Reads
  names : s.objects.names.Nodup
  owned : s.world.graph.Owned s.nodes

theorem owned_release {others pending : List NodeId}
    (h : s.world.graph.Owned ({n | n ∈ pending} ∪ ({n | n ∈ others} ∪ s.nodes))) :
    (s.release others pending).world.graph.Owned ({n | n ∈ others} ∪ s.nodes) := by
  refine (Owned.release (h.mono ?_)).mono ?_
  · rintro n (hn | hn | hn)
    · exact .inl hn
    · exact .inr (List.mem_append_right _ hn)
    · exact .inr (List.mem_append_left _ (mem_objectNodes.mpr hn))
  · intro n hn
    exact (List.mem_append.mp hn).symm.imp id mem_objectNodes.mp

theorem owned_release_nil {pending : List NodeId}
    (h : s.world.graph.Owned ({n | n ∈ pending} ∪ s.nodes)) :
    (s.release [] pending).world.graph.Owned s.nodes := by
  refine (owned_release (h.mono ?_)).mono (Set.union_subset ?_ (subset_refl _))
  · exact Set.union_subset_union_right _ Set.subset_union_right
  · exact fun n hn => absurd hn List.not_mem_nil

theorem nodes_subset_put (name : String) (o : Object K) :
    {n | n ∈ o.nodes} ∪ s.nodes ⊆
      {n | n ∈ ((s.objects.find? name).map (·.nodes)).getD []} ∪
        Object.nodesIn ((s.objects.put name o).map (·.2)) := by
  rintro n (hn | ⟨p, hp, hn⟩)
  · have hself : (name, o) ∈ s.objects.put name o := Table.mem_alter_self s.objects
    exact .inr ⟨o, List.mem_map_of_mem hself, hn⟩
  · obtain ⟨e, he, rfl⟩ := List.mem_map.mp hp
    rcases Table.mem_alter_of_mem name (fun _ => o) he with hkept | hfound
    · exact .inr ⟨e.2, List.mem_map_of_mem hkept, hn⟩
    · refine .inl ?_
      rw [hfound]
      exact hn

theorem nodes_subset_erase (hs : s.objects.names.Nodup) {name : String} {o : Object K}
    (ho : s.objects.find? name = some o) :
    s.nodes ⊆ {n | n ∈ o.nodes} ∪ Object.nodesIn ((s.objects.erase name).map (·.2)) := by
  rintro n ⟨p, hp, hn⟩
  obtain ⟨e, he, rfl⟩ := List.mem_map.mp hp
  rcases Table.mem_erase_of_mem hs name he with hkept | hfound
  · exact .inr ⟨e.2, List.mem_map_of_mem hkept, hn⟩
  · obtain rfl := Option.some.inj (ho.symm.trans hfound)
    exact .inl hn

theorem owned_keep (storeAs : Option String) {r : Reply K}
    (h : s.world.graph.Owned (Reply.owners (.ok r) ∪ s.nodes)) :
    (s.keep storeAs r).world.graph.Owned (s.keep storeAs r).nodes := by
  let released := s.release r.object.nodes r.displaced
  have hkept : released.world.graph.Owned ({n | n ∈ r.object.nodes} ∪ s.nodes) :=
    owned_release (h.mono (Set.union_assoc ..).subset)
  cases storeAs with
  | some name =>
    let stored : Session K D := { released with objects := s.objects.put name r.object }
    exact owned_release_nil (s := stored) (hkept.mono (nodes_subset_put name r.object))
  | none => exact owned_release_nil (s := released) hkept

theorem nodup_keep (storeAs : Option String) {r : Reply K} (h : s.objects.names.Nodup) :
    (s.keep storeAs r).objects.names.Nodup := by
  cases storeAs with
  | some name => exact Table.nodup_put h name r.object
  | none => exact h

theorem module_keep (storeAs : Option String) (r : Reply K) :
    (s.keep storeAs r).module = s.module := by
  cases storeAs <;> rfl

end Objects

end Session

section Calls

variable {K D : Type} [Zero K] [One K] [Add K] [Mul K] [MulAdd K] [Capacity K] [NatCast K]
  [Calculus K] [Differential K D] [HostDerivative K D] {N : Set NodeId}

namespace Module

variable {m : Module} {os : List (Object K)} {c : Call K}

theorem Runs.rests {o : Option (Call K)} {x : HostM K D (Except Error (Reply K))}
    (h : m.Runs os o x) (ho : ∀ c, o = some c → c.body.isInert) : Rests N x := by
  cases h with
  | @call c hbody hargs => exact c.body.rests_run (ho c rfl) c.args
  | refused e => exact rests_pure _

end Module

namespace Session

variable {s s' : Session K D}

theorem vouches_perform {request : Request K} {m : HostM K D (Except Error (Reply K))}
    (h : s.perform request = .ok m) : Vouches N m := by
  cases performs h with
  | @call c hc => exact c.body.vouches_run c.args
  | refused hc e => exact (rests_pure _).vouches
  | bare hc name =>
    have hlabel : Rests N (onGraph do
        return Body.plain (.inst (.bare name (← freshLabel))) :
          HostM K D (Except Error (Reply K))) :=
      rests_onGraph (T := ∅) fun S =>
        works_freshLabel.before fun _ => works_pure (Set.empty_subset S)
    exact hlabel.vouches
  | copy hc ho => exact (rests_pure _).vouches

theorem Tours.rests {m : Module} (hm : m.Reads) {os : List (Object K)} {x : HostM K D _}
    (h : Tours m os x) (hos : Object.nodesIn os ⊆ N) : Rests N x := by
  induction h with
  | done => exact rests_pure []
  | @next name c n hn x hx ih =>
    have hn := hos (Object.mem_nodesIn hn)
    have hvalue : Rests N (m.callInstance (.inst (.var c n)) [] : HostM K D _) :=
      (m.runs_callMethod _ _ []).rests fun _ hc => hm.of_method hc
    have hderivative : Rests N (m.call "d" [.inst (.var c n)] : HostM K D _) :=
      (m.runs_call _ _).rests fun _ hc => hm.of_function hc
    exact hvalue.bind (idles_value m hn) fun _ => hderivative.bind (idles_derivative m hn) fun _ =>
      ih.bind (hx.idles hos) fun _ => rests_pure _

variable [BEq K]

/-- What a step leaves without an owner is given up before it ends. -/
theorem Accounted.step (hs : s.Accounted) (hwhole : s.world.scene.Whole s.nodes) {x : Step K}
    {r : Except Failure (Answer K)} (h : s.step x = some (s', r)) : s'.Accounted := by
  cases steps h with
  | unnamed => exact hs
  | refused hm hrun =>
    have howned := vouches_perform hm s.world _ _ hwhole hs.owned hrun
    exact ⟨hs.module, hs.names, howned.mono (Set.empty_union _).subset⟩
  | @made request m hm reply w hrun storeAs =>
    have howned := vouches_perform hm s.world _ _ hwhole hs.owned hrun
    let made : Session K D := { s with world := w }
    refine ⟨?_, nodup_keep (s := made) storeAs hs.names, owned_keep (s := made) storeAs howned⟩
    rw [module_keep]
    exact hs.module
  | @dropped name o ho =>
    let erased : Session K D := { s with objects := s.objects.erase name }
    exact ⟨hs.module, Table.nodup_erase hs.names name,
      owned_release_nil (s := erased) (hs.owned.mono (nodes_subset_erase hs.names ho))⟩
  | dumped hrun =>
    have htour :=
      (tours (D := D) s.module (List.Subset.refl _)).rests hs.module (subset_refl s.nodes)
    have htouches := htour s.world _ _ hwhole hrun
    exact ⟨hs.module, hs.names, hs.owned.touches htouches⟩
  | defined name label params => exact ⟨hs.module.define name rfl, hs.names, hs.owned⟩
  | definedMethod className name label params =>
    exact ⟨hs.module.defineMethod className name rfl, hs.names, hs.owned⟩
  | addedClass name bases doc => exact ⟨hs.module.addClass name bases doc, hs.names, hs.owned⟩
  | documented name doc => exact ⟨⟨hs.module.function, hs.module.method⟩, hs.names, hs.owned⟩
  | asked => exact ⟨hs.module, hs.names, hs.owned⟩

end Session

end Calls

end GradientGraph
