import GradientGraph.Proofs.Host.Making
import GradientGraph.Proofs.Session.Request

/-!
# What holds of every session

Whatever steps are taken, the graph is orderly with the formulas of the stored objects,
and every program remembers a plan of what the graph used to be.
-/

set_option autoImplicit false

namespace GradientGraph

section Calls

variable {K D : Type} [Zero K] [One K] [Add K] [Mul K] [MulAdd K] [Capacity K] [NatCast K]
  [Calculus K] [Differential K D] [HostDerivative K D] {H : Set (Formula K)}

theorem Module.Runs.hosts {m : Module} {os : List (Object K)} {c : Option (Call K)}
    {x : HostM K D (Except Error (Reply K))} (h : m.Runs os c x)
    (hos : Object.formulasOf os ⊆ H) : Hosts H x Reply.given := by
  cases h with
  | call hbody hargs => exact Body.hosts_run _ _ ((Object.formulasOf_subset hargs).trans hos)
  | refused e => exact hosts_pure (Set.empty_subset H)

theorem Session.Tours.hosts {m : Module} {os : List (Object K)} {x : HostM K D _}
    (h : Tours m os x) (hos : Object.formulasOf os ⊆ H) : Hosts H x fun _ => ∅ := by
  induction h generalizing H with
  | done => exact hosts_pure (Set.empty_subset H)
  | @next name c n hn x _ ih =>
    have hvalue := m.runs_callMethod (D := D) (.inst (.var c n)) "__call__" []
    have hderivative := m.runs_call (D := D) "d" [.inst (.var c n)]
    refine (hvalue.hosts (Object.formulasOf_variable c n)).bind fun v => ?_
    refine (hderivative.hosts (Object.formulasOf_variable c n)).bind fun d => ?_
    refine (ih (hos.trans ?_)).bind fun vs => hosts_pure (Set.empty_subset _)
    exact Set.subset_union_right.trans Set.subset_union_right

end Calls

namespace Session

variable {K D : Type}

def held (s : Session K D) : Set (Formula K) := Object.formulasOf (s.objects.map (·.2))

def Orderly (s : Session K D) : Prop := s.world.Orderly s.held

section Objects

variable {s : Session K D} {H : Set (Formula K)}

theorem orderly_release (others pending : List NodeId) (h : s.world.Orderly H) :
    (s.release others pending).world.Orderly H := by
  have hkeeps := Graph.Keeps.release (objectNodes s.objects ++ others) pending s.world.graph
  exact ⟨h.graph.keeps hkeeps, fun p hp => (h.programs p hp).ages hkeeps.ages⟩

theorem held_put {name : String} {o : Object K} {a : Formula K}
    (h : a ∈ Object.formulasOf ((s.objects.put name o).map (·.2))) :
    a ∈ o.formulas ∪ s.held := by
  obtain ⟨p, hp, ha⟩ := h
  obtain ⟨e, he, rfl⟩ := List.mem_map.mp hp
  obtain rfl | he := Table.mem_put he
  · exact .inl ha
  · exact .inr ⟨_, List.mem_map_of_mem he, ha⟩

theorem held_erase {name : String} {a : Formula K}
    (h : a ∈ Object.formulasOf ((s.objects.erase name).map (·.2))) : a ∈ s.held := by
  obtain ⟨p, hp, ha⟩ := h
  obtain ⟨e, he, rfl⟩ := List.mem_map.mp hp
  exact ⟨_, List.mem_map_of_mem (Table.mem_erase he), ha⟩

theorem orderly_store (name : String) {o : Object K}
    (h : s.world.Orderly (o.formulas ∪ s.held)) : (s.store name o).Orderly :=
  orderly_release (s := { s with objects := s.objects.put name o }) _ _
    (h.mono fun _ => held_put)

theorem orderly_keep (storeAs : Option String) {r : Reply K}
    (h : s.world.Orderly (r.object.formulas ∪ s.held)) : (s.keep storeAs r).Orderly := by
  have hkept : (s.release r.object.nodes r.displaced).world.Orderly
      (r.object.formulas ∪ s.held) := orderly_release _ _ h
  cases storeAs with
  | some name => exact orderly_store name hkept
  | none => exact orderly_release _ _ (hkept.mono Set.subset_union_right)

end Objects

section Steps

variable [Zero K] [One K] [Add K] [Mul K] [MulAdd K] [Capacity K] [NatCast K] [Calculus K]
  [Differential K D] [HostDerivative K D] {s s' : Session K D}

theorem hosts_perform {request : Request K} {m : HostM K D (Except Error (Reply K))}
    (h : s.perform request = .ok m) : Hosts s.held m Reply.given := by
  cases performs h with
  | call hc hbody hargs => exact Body.hosts_run _ _ (Object.formulasOf_subset hargs)
  | refused hc e => exact hosts_pure (Set.empty_subset s.held)
  | bare hc name =>
    refine (hosts_onGraph silent_freshLabel.brings).bind fun id => hosts_pure ?_
    exact Body.given_of_none fun a h => by cases h
  | copy hc ho =>
    exact hosts_pure fun a ha => Object.formulasOf_subset ho ⟨_, List.mem_cons_self .., ha⟩

variable [BEq K]

theorem orderly_step {x : Step K} {r : Except Failure (Answer K)} (hs : s.Orderly)
    (h : s.step x = some (s', r)) : s'.Orderly := by
  cases steps h with
  | unnamed => exact hs
  | refused hm hrun =>
    exact (hosts_perform hm s.world _ _ hs hrun).mono Set.subset_union_right
  | made hm hrun storeAs => exact orderly_keep storeAs (hosts_perform hm s.world _ _ hs hrun)
  | @dropped name o =>
    exact orderly_release (s := { s with objects := s.objects.erase name }) _ _
      (hs.mono fun _ => held_erase)
  | dumped hrun =>
    have htour := (tours (D := D) s.module (List.Subset.refl _)).hosts (subset_refl s.held)
    exact (htour s.world _ _ hs hrun).mono Set.subset_union_right
  | _ => exact hs

inductive Reachable : Session K D → Prop where
  | start (m : Module) : Reachable { module := m }
  | step {s s' : Session K D} {r : Except Failure (Answer K)} (x : Step K) (hs : Reachable s)
    (h : s.step x = some (s', r)) : Reachable s'

theorem Reachable.orderly (h : s.Reachable) : s.Orderly := by
  induction h with
  | start m =>
    refine ⟨Graph.orderly_empty.mono ?_, fun p hp => absurd hp (Array.not_mem_empty p)⟩
    rintro a ⟨o, ho, -⟩
    cases ho
  | step x hs h ih => exact orderly_step ih h

end Steps

end Session

end GradientGraph
