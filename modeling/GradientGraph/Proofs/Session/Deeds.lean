import GradientGraph.Proofs.Host.Acts
import GradientGraph.Proofs.Session.Invariant

/-!
# Steps of a session as deeds

A request does the deed of the call that its arguments lead to. All other steps do
nothing, and each may give up references. Between two steps the graph is whole with the
nodes that the stored objects refer to.
-/

set_option autoImplicit false

namespace GradientGraph

def deedOf {K D : Type} [HostDerivative K D] : Option (Call K) → Deed D
  | some c => c.body.deed c.args
  | none => .nothing

section Variables

variable {K D : Type} [Zero K] [HostDerivative K D] {category : Category} {n : NodeId}

theorem deedOf_variable {s : OverloadSet} :
    deedOf (s.select? [(.inst (.var category n) : Object K)]) = (.nothing : Deed D) := by
  cases hc : s.select? [(.inst (.var category n) : Object K)] with
  | none => rfl
  | some c =>
    obtain ⟨b, -, hb⟩ := List.exists_of_findSome?_eq_some hc
    obtain ⟨xs, hxs, rfl⟩ := Option.map_eq_some_iff.mp hb
    -- a second argument is missing, or a program
    cases b with
    | assignLiteral c =>
      obtain ⟨_, -, h⟩ := Option.bind_eq_some_iff.mp hxs
      cases h
    | assignExpression c =>
      obtain ⟨_, -, h⟩ := Option.bind_eq_some_iff.mp hxs
      cases h
    | setDerivative c d =>
      obtain ⟨_, -, h⟩ := Option.bind_eq_some_iff.mp hxs
      cases h
    | compile => cases hxs
    | evaluate => cases hxs
    | pushTangent => cases hxs
    | pushTangentAt => cases hxs
    | pullGradient => cases hxs
    | pullGradientAt => cases hxs
    | _ => rfl

theorem Module.deedOf_method (m : Module) (name : String) :
    deedOf (m.selectMethod? (.inst (.var category n) : Object K) name []) =
      (.nothing : Deed D) := by
  have hselect : m.selectMethod? (.inst (.var category n) : Object K) name [] =
      (m.method? category.variableClass name).bind (·.select? [.inst (.var category n)]) := rfl
  rw [hselect]
  cases m.method? category.variableClass name with
  | none => rfl
  | some s => exact deedOf_variable

theorem Module.deedOf_function (m : Module) (name : String) :
    deedOf (m.selectFunction? name [(.inst (.var category n) : Object K)]) =
      (.nothing : Deed D) := by
  unfold selectFunction?
  cases m.functions.find? name with
  | none => rfl
  | some s => exact deedOf_variable

end Variables

section Idling

variable {K D α β : Type} [Zero K] [One K] [Add K] [Mul K] [MulAdd K] [Capacity K] [NatCast K]
  [Calculus K] [Differential K D] {N : Set NodeId}

/-- Whether the computation does nothing but make nodes and programs. -/
def Idles (N : Set NodeId) (m : HostM K D α) : Prop :=
  ∀ (w : World K D) (x : α) (w' : World K D), w.scene.Whole N → m w = some (x, w') →
    (Deed.nothing : Deed D).Does true w.scene w'.scene ∧ w'.scene.Whole N

theorem idles_pure (x : α) : Idles N (pure x : HostM K D α) := by
  intro w y w' hw h
  cases h
  exact ⟨Deed.Mild.does trivial (.refl _ _) fun _ _ hp => hp, hw⟩

theorem Idles.bind {m : HostM K D α} {f : α → HostM K D β} (hm : Idles N m)
    (hf : ∀ x, Idles N (f x)) : Idles N (m >>= f) := by
  intro w y w'' hw h
  obtain ⟨x, w', hx, hy⟩ := exists_of_bind h
  obtain ⟨hdoes, hw'⟩ := hm w x w' hw hx
  obtain ⟨hdoes', hw''⟩ := hf x w' y w'' hw' hy
  refine ⟨Deed.Mild.does trivial (hdoes.grows.trans hdoes'.grows) fun f p hp => ?_, hw''⟩
  exact hdoes'.others f p nofun (hdoes.others f p nofun hp)

theorem Acts.idles {m : HostM K D (Except Error (Reply K))} (hm : Acts N .nothing m) :
    Idles N m := by
  intro w r w' hw h
  obtain ⟨hdoes, hw'⟩ := hm w r w' hw h
  exact ⟨Deed.Mild.does trivial hdoes.grows fun f p hp => hdoes.others f p nofun hp,
    hw'.mono Set.subset_union_right⟩

end Idling

section Calls

variable {K D : Type} [Zero K] [One K] [Add K] [Mul K] [MulAdd K] [Capacity K] [NatCast K]
  [Calculus K] [Differential K D] [HostDerivative K D] {N : Set NodeId}

theorem Module.Runs.acts {m : Module} {os : List (Object K)} {c : Option (Call K)}
    {x : HostM K D (Except Error (Reply K))} (h : m.Runs os c x)
    (hos : Object.nodesIn os ⊆ N) : Acts N (deedOf c) x := by
  cases h with
  | call hbody hargs => exact Body.acts_run _ _ ((Object.nodesIn_subset hargs).trans hos)
  | refused e => exact acts_pure (Set.empty_subset N)

end Calls

namespace Session

section Objects

variable {K D : Type} {s : Session K D} {N : Set NodeId}

def nodes (s : Session K D) : Set NodeId := Object.nodesIn (s.objects.map (·.2))

theorem mem_objectNodes {objects : Table (Object K)} {n : NodeId} :
    n ∈ objectNodes objects ↔ n ∈ Object.nodesIn (objects.map (·.2)) := by
  rw [objectNodes, List.mem_flatMap]
  constructor
  · rintro ⟨e, he, hn⟩
    exact ⟨e.2, List.mem_map_of_mem he, hn⟩
  · rintro ⟨o, ho, hn⟩
    obtain ⟨e, he, rfl⟩ := List.mem_map.mp ho
    exact ⟨e, he, hn⟩

theorem nodes_put {name : String} {o : Object K} :
    Object.nodesIn ((s.objects.put name o).map (·.2)) ⊆ {n | n ∈ o.nodes} ∪ s.nodes := by
  rintro n ⟨p, hp, hn⟩
  obtain ⟨e, he, rfl⟩ := List.mem_map.mp hp
  rcases Table.mem_put he with heq | he
  · exact .inl (heq ▸ hn)
  · exact .inr ⟨_, List.mem_map_of_mem he, hn⟩

theorem nodes_erase {name : String} :
    Object.nodesIn ((s.objects.erase name).map (·.2)) ⊆ s.nodes := by
  rintro n ⟨p, hp, hn⟩
  obtain ⟨e, he, rfl⟩ := List.mem_map.mp hp
  exact ⟨_, List.mem_map_of_mem (Table.mem_erase he), hn⟩

theorem whole_release {others pending : List NodeId}
    (h : s.world.scene.Whole ({n | n ∈ others} ∪ s.nodes)) :
    (s.release others pending).world.scene.Whole ({n | n ∈ others} ∪ s.nodes) := by
  refine Graph.Whole.release h (fun n hn => List.mem_append.mpr ?_) pending
  exact hn.symm.imp mem_objectNodes.mpr id

theorem whole_release_nil {pending : List NodeId} (h : s.world.scene.Whole s.nodes) :
    (s.release [] pending).world.scene.Whole s.nodes := by
  refine (whole_release (h.mono (Set.union_subset ?_ (subset_refl _)))).mono Set.subset_union_right
  exact fun n hn => absurd hn List.not_mem_nil

theorem whole_keep (storeAs : Option String) {r : Reply K}
    (h : s.world.scene.Whole ({n | n ∈ r.object.nodes} ∪ s.nodes)) :
    (s.keep storeAs r).world.scene.Whole (s.keep storeAs r).nodes := by
  let released := s.release r.object.nodes r.displaced
  have hkept : released.world.scene.Whole ({n | n ∈ r.object.nodes} ∪ s.nodes) := whole_release h
  cases storeAs with
  | some name =>
    let stored : Session K D := { released with objects := s.objects.put name r.object }
    have hput : stored.world.scene.Whole stored.nodes := hkept.mono nodes_put
    exact whole_release_nil hput
  | none => exact whole_release_nil (hkept.mono Set.subset_union_right)

theorem sheds_keep (storeAs : Option String) (r : Reply K) :
    s.world.graph.Sheds (s.keep storeAs r).world.graph := by
  cases storeAs <;> exact (Graph.sheds_release ..).trans (Graph.sheds_release ..)

end Objects

section Tasks

variable {K D : Type} [Zero K] [HostDerivative K D] {s : Session K D}

def deed (s : Session K D) : Step K → Deed D
  | .make request _ => deedOf (s.call? request)
  | _ => .nothing

theorem deed_of_asked {x : Step K} (hx : x.request? = none) :
    s.deed x = (.nothing : Deed D) := by
  cases x with
  | make request storeAs => cases hx
  | _ => rfl

end Tasks

section Steps

variable {K D : Type} [Zero K] [One K] [Add K] [Mul K] [MulAdd K] [Capacity K] [NatCast K]
  [Calculus K] [Differential K D] [HostDerivative K D] {s s' : Session K D}

theorem acts_perform {request : Request K} {m : HostM K D (Except Error (Reply K))}
    (h : s.perform request = .ok m) : Acts s.nodes (deedOf (s.call? request)) m := by
  cases performs h with
  | call hc hbody hargs =>
    rw [hc]
    exact Body.acts_run _ _ (Object.nodesIn_subset hargs)
  | refused hc e =>
    rw [hc]
    exact acts_pure (Set.empty_subset s.nodes)
  | bare hc name =>
    rw [hc]
    have hnone (id : Label) : Reply.nodes (Body.plain (.inst (.bare name id : Instance K))) ⊆
        s.nodes := fun _ hn => absurd hn List.not_mem_nil
    exact Body.acts_silent (fun _ => works_freshLabel) silent_freshLabel hnone
  | copy hc ho =>
    rw [hc]
    exact acts_pure fun n hn => Object.nodesIn_subset ho ⟨_, List.mem_cons_self .., hn⟩

theorem idles_value {N : Set NodeId} (m : Module) {c : Category} {n : NodeId} (hn : n ∈ N) :
    Idles N (m.callInstance (.inst (.var c n)) [] : HostM K D (Except Error (Reply K))) := by
  have hacts := (m.runs_callMethod (D := D) (.inst (.var c n)) "__call__" []).acts
    (Object.nodesIn_variable hn)
  rw [m.deedOf_method] at hacts
  exact hacts.idles

theorem idles_derivative {N : Set NodeId} (m : Module) {c : Category} {n : NodeId} (hn : n ∈ N) :
    Idles N (m.call "d" [.inst (.var c n)] : HostM K D (Except Error (Reply K))) := by
  have hacts := (m.runs_call (D := D) "d" [.inst (.var c n)]).acts (Object.nodesIn_variable hn)
  rw [m.deedOf_function] at hacts
  exact hacts.idles

theorem Tours.idles {N : Set NodeId} {m : Module} {os : List (Object K)} {x : HostM K D _}
    (h : Tours m os x) (hos : Object.nodesIn os ⊆ N) : Idles N x := by
  induction h with
  | done => exact idles_pure []
  | next name hn _ ih =>
    have hn := hos (Object.mem_nodesIn hn)
    exact (idles_value m hn).bind fun _ => (idles_derivative m hn).bind fun _ =>
      ih.bind fun _ => idles_pure _

variable [BEq K]

/-- A step does its deed, and leaves the session whole. -/
theorem step_leads {x : Step K} {r : Except Failure (Answer K)}
    (hs : s.world.scene.Whole s.nodes) (h : s.step x = some (s', r)) :
    s.world.scene.Leads (s.deed x) r.isOk s'.world.scene ∧ s'.world.scene.Whole s'.nodes := by
  have hidle (done : Bool) : s.world.scene.Leads (.nothing : Deed D) done s.world.scene :=
    .of_does (Deed.Mild.does trivial (.refl _ _) fun _ _ hp => hp)
  cases steps h with
  | unnamed hf =>
    rw [deed, call?_of_error hf]
    exact ⟨hidle _, hs⟩
  | refused hm hrun =>
    obtain ⟨hdoes, hwhole⟩ := acts_perform hm s.world _ _ hs hrun
    exact ⟨.of_does hdoes, hwhole.mono Set.subset_union_right⟩
  | @made request m hm reply w hrun storeAs =>
    obtain ⟨hdoes, hwhole⟩ := acts_perform hm s.world _ _ hs hrun
    let made : Session K D := { s with world := w }
    refine ⟨?_, whole_keep (s := made) storeAs hwhole⟩
    have hkept := (Scene.Leads.of_does hdoes).sheds (sheds_keep (s := made) storeAs reply)
    cases storeAs <;> exact hkept
  | @dropped name o =>
    let erased : Session K D := { s with objects := s.objects.erase name }
    have herased : erased.world.scene.Whole erased.nodes := hs.mono nodes_erase
    exact ⟨(hidle true).sheds (Graph.sheds_release ..), whole_release_nil herased⟩
  | dumped hrun =>
    have htour := (tours (D := D) s.module (List.Subset.refl _)).idles (subset_refl s.nodes)
    obtain ⟨hdoes, hwhole⟩ := htour s.world _ _ hs hrun
    exact ⟨.of_does hdoes, hwhole⟩
  | asked hx =>
    rw [deed_of_asked hx]
    exact ⟨hidle _, hs⟩
  | _ => exact ⟨hidle _, hs⟩

theorem Reachable.whole (h : s.Reachable) : s.world.scene.Whole s.nodes := by
  induction h with
  | start m =>
    refine Graph.Whole.mono Graph.whole_empty ?_ ?_
    · rintro i ⟨f, p, hp, -⟩
      cases f with
      | number id => cases hp
      | name f => cases hp
    · rintro n ⟨o, ho, -⟩
      cases ho
  | step x _ h ih => exact (step_leads ih h).2

end Steps

end Session

end GradientGraph
