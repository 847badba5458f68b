import GradientGraph.Program.State
import GradientGraph.Proofs.Plan.Order
import Mathlib.Logic.Relation

/-!
# What a plan reaches

The search for a plan meets the nodes that can be reached from the targets along the
edges it follows, and no others. It fails where one of them is gone or where the edges
close a cycle, and nowhere else.
-/

set_option autoImplicit false

namespace GradientGraph

namespace Plan

variable {α : Type} (a : Arena α) (computed : α → Bool) (targets bounds : NodeSet)

def Expands (n : NodeId) : Prop :=
  n ∉ bounds ∧ ∃ x, a.node? n = some x ∧ computed x.content = true

def Leads (n c : NodeId) : Prop := Expands a computed bounds n ∧ c ∈ childrenOf a n

/-- The least set with the targets in it and closed under the edges. -/
inductive Reaches : NodeId → Prop where
  | target {n : NodeId} : n ∈ targets → Reaches n
  | child {n c : NodeId} : Reaches n → Leads a computed bounds n c → Reaches c

/-- Whether edges that can be reached close a cycle. -/
def Cyclic : Prop :=
  ∃ n, Reaches a computed targets bounds n ∧ Relation.TransGen (Leads a computed bounds) n n

/-- Why a search fails. -/
def Fails (e : Error) : Prop :=
  e = .cyclicDependency ∧ Cyclic a computed targets bounds ∨
    e = .nodeNotIndexed ∧ ∃ n, Reaches a computed targets bounds n ∧ a.contains n = false

/-- The plan is the part of the arena that can be reached, every node after its children. -/
structure Orders (p : Plan) : Prop where
  nodup : p.order.Nodup
  members : ∀ n, n ∈ p.order ↔ Reaches a computed targets bounds n
  ordered : ∀ before n after, p.order = before ++ n :: after → Expands a computed bounds n →
    ∀ c ∈ childrenOf a n, c ∈ before
  sources : ∀ n, n ∈ p.sources ↔ Reaches a computed targets bounds n ∧
    (n ∈ bounds ∨ ∃ x, a.node? n = some x ∧ computed x.content = false)
  versions : ∀ n v, (n, v) ∈ p.versions ↔
    Reaches a computed targets bounds n ∧ n ∉ bounds ∧ a.version? n = some v
  once : (p.versions.map (·.1)).Nodup

/-- Where the nodes of a search came from. The open nodes stand innermost first. -/
structure Search.Traced (s : Search) : Prop where
  reached : ∀ n ∈ s.met, Reaches a computed targets bounds n
  remaining : ∀ f ∈ s.opened, ∀ c ∈ f.children, Leads a computed bounds f.node c
  stacked : s.opened.Pairwise fun f f' => Relation.TransGen (Leads a computed bounds) f'.node f.node
  recorded : ∀ q ∈ s.versions, q.1 ∈ s.met ∧ q.1 ∉ bounds
  once : (s.versions.map (·.1)).Nodup

variable {a computed targets bounds}

theorem expands_iff {n : NodeId} (h : a.contains n) :
    Expands a computed bounds n ↔ ¬Stops a computed bounds n := by
  obtain ⟨x, hx⟩ := Arena.contains_iff.mp h
  simp [Expands, Stops, hx]

theorem not_stops_of_expands {n : NodeId} (h : Expands a computed bounds n) :
    ¬Stops a computed bounds n := by
  obtain ⟨hn, x, hx, -⟩ := id h
  exact (expands_iff (Arena.contains_iff.mpr ⟨x, hx⟩)).mp h

namespace Search

variable {s t : Search} {n : NodeId} {e : Error}

theorem traced_empty : Traced a computed targets bounds {} where
  reached := by simp [met]
  remaining := by simp
  stacked := .nil
  recorded := by simp
  once := .nil

theorem enter_traced (h : Traced a computed targets bounds s) (hn : n ∉ s.met)
    (hreach : Reaches a computed targets bounds n)
    (hinner : ∀ f ∈ s.opened, Relation.TransGen (Leads a computed bounds) f.node n)
    (he : enter a computed bounds n s = .ok t) : Traced a computed targets bounds t := by
  obtain ⟨x, hx, hversions, hcases⟩ := enter_cases he
  have hreached : ∀ k ∈ t.met, Reaches a computed targets bounds k := by
    intro k hk
    rcases (met_enter he k).mp hk with rfl | hk
    · exact hreach
    · exact h.reached k hk
  have hrecorded : ∀ q ∈ t.versions, q.1 ∈ t.met ∧ q.1 ∉ bounds := by
    intro q hq
    rw [hversions] at hq
    split at hq
    · exact ⟨(met_enter he q.1).mpr (.inr (h.recorded q hq).1), (h.recorded q hq).2⟩
    · rename_i hb
      rcases List.mem_cons.mp hq with rfl | hq
      · exact ⟨(met_enter he n).mpr (.inl rfl), hb⟩
      · exact ⟨(met_enter he q.1).mpr (.inr (h.recorded q hq).1), (h.recorded q hq).2⟩
  have honce : (t.versions.map (·.1)).Nodup := by
    rw [hversions]
    split
    · exact h.once
    · rw [List.map_cons, List.nodup_cons]
      refine ⟨?_, h.once⟩
      -- what has a version recorded was met, and `n` was not
      intro hmem
      obtain ⟨q, hq, rfl⟩ := List.mem_map.mp hmem
      exact hn (h.recorded q hq).1
  -- a node at which the search stops is closed at once, any other is opened
  rcases hcases with ⟨-, ho, -, -⟩ | ⟨hstops, ho, -, -⟩
  · exact ⟨hreached, ho ▸ h.remaining, ho ▸ h.stacked, hrecorded, honce⟩
  · refine ⟨hreached, ?_, ?_, hrecorded, honce⟩
    · rw [ho]
      intro f hf c hc
      rcases List.mem_cons.mp hf with rfl | hf
      · refine ⟨(expands_iff (Arena.contains_iff.mpr ⟨x, hx⟩)).mpr hstops, ?_⟩
        simpa [childrenOf, Arena.children?, hx] using hc
      · exact h.remaining f hf c hc
    · rw [ho, List.pairwise_cons]
      exact ⟨hinner, h.stacked⟩

theorem Traced.inner (h : Traced a computed targets bounds s) {m c : NodeId} {cs : List NodeId}
    {rest : List Frame} (hs : s.opened = ⟨m, c :: cs⟩ :: rest) {k : NodeId}
    (hk : k = m ∨ k ∈ rest.map (·.node)) :
    Relation.TransGen (Leads a computed bounds) k c := by
  have hlast : Leads a computed bounds m c :=
    h.remaining ⟨m, c :: cs⟩ (by simp [hs]) c (List.mem_cons_self ..)
  have hstacked := h.stacked
  rw [hs, List.pairwise_cons] at hstacked
  rcases hk with rfl | hk
  · exact .single hlast
  · obtain ⟨f, hf, rfl⟩ := List.mem_map.mp hk
    exact (hstacked.1 f hf).tail hlast

theorem Traced.next (h : Traced a computed targets bounds s) {m c : NodeId} {cs : List NodeId}
    {rest : List Frame} (hs : s.opened = ⟨m, c :: cs⟩ :: rest) :
    Traced a computed targets bounds { s with opened := ⟨m, cs⟩ :: rest } := by
  have hmet : met { s with opened := ⟨m, cs⟩ :: rest } = s.met := by simp [met, hs]
  have hstacked := h.stacked
  rw [hs, List.pairwise_cons] at hstacked
  refine ⟨hmet ▸ h.reached, ?_, List.pairwise_cons.mpr hstacked, hmet ▸ h.recorded, h.once⟩
  intro f hf k hk
  rcases List.mem_cons.mp hf with rfl | hf
  · exact h.remaining ⟨m, c :: cs⟩ (by simp [hs]) k (List.mem_cons_of_mem _ hk)
  · exact h.remaining f (by simp [hs, hf]) k hk

theorem Traced.close (h : Traced a computed targets bounds s) {m : NodeId} {rest : List Frame}
    (hs : s.opened = ⟨m, []⟩ :: rest) :
    Traced a computed targets bounds { s with opened := rest, closed := m :: s.closed } := by
  have hmet (k : NodeId) :
      k ∈ met { s with opened := rest, closed := m :: s.closed } ↔ k ∈ s.met := by
    simp only [met, hs, List.map_cons, List.cons_append]
    exact List.perm_middle.mem_iff
  have hstacked := h.stacked
  rw [hs, List.pairwise_cons] at hstacked
  refine ⟨fun k hk => h.reached k ((hmet k).mp hk), ?_, hstacked.2, ?_, h.once⟩
  · intro f hf
    exact h.remaining f (by simp [hs, hf])
  · intro q hq
    exact ⟨(hmet q.1).mpr (h.recorded q hq).1, (h.recorded q hq).2⟩

theorem Traced.reaches_next (h : Traced a computed targets bounds s) {m c : NodeId}
    {cs : List NodeId} {rest : List Frame} (hs : s.opened = ⟨m, c :: cs⟩ :: rest) :
    Reaches a computed targets bounds c :=
  .child (h.reached m (by simp [met, hs]))
    (h.remaining ⟨m, c :: cs⟩ (by simp [hs]) c (List.mem_cons_self ..))

theorem advance_traced (h : Traced a computed targets bounds s)
    (ha : advance a computed bounds s = .ok (some t)) : Traced a computed targets bounds t := by
  obtain ⟨m, rest, hs, rfl⟩ | ⟨m, c, cs, rest, hs, ho, ⟨hc, rfl⟩ | ⟨hc, he⟩⟩ := advance_cases ha
  · exact h.close hs
  · exact h.next hs
  · apply enter_traced (h.next hs) _ (h.reaches_next hs) _ he
    · rw [mem_met]
      simp only [isOpen, hs, List.any_cons] at ho ⊢
      simpa [hc] using ho
    · intro f hf
      apply h.inner hs
      rcases List.mem_cons.mp hf with rfl | hf
      · exact .inl rfl
      · exact .inr (List.mem_map_of_mem hf)

theorem enter_fails (hreach : Reaches a computed targets bounds n)
    (he : enter a computed bounds n s = .error e) : Fails a computed targets bounds e := by
  unfold enter at he
  cases hx : a.node? n with
  | none =>
    rw [hx] at he
    cases he
    exact .inr ⟨rfl, n, hreach, by simp [Arena.contains, hx]⟩
  | some x =>
    simp only [hx] at he
    split at he <;> cases he

/-- An edge to an open node goes back to where the search came from. -/
theorem advance_fails (h : Traced a computed targets bounds s)
    (ha : advance a computed bounds s = .error e) : Fails a computed targets bounds e := by
  unfold advance at ha
  split at ha
  · cases ha
  · cases ha
  · rename_i m c cs rest hs
    split at ha
    · rename_i hopen
      cases ha
      rw [isOpen_iff, hs, List.map_cons, List.mem_cons] at hopen
      exact .inl ⟨rfl, c, h.reaches_next hs, h.inner hs hopen⟩
    · split at ha
      · cases ha
      · cases he : enter a computed bounds c { s with opened := ⟨m, cs⟩ :: rest } with
        | ok u => simp [he, Except.map] at ha
        | error e' =>
          obtain rfl : e' = e := by simpa [he, Except.map] using ha
          exact enter_fails (h.reaches_next hs) he

theorem run_traced (h : Traced a computed targets bounds s)
    (hr : run a computed bounds s = .ok t) : Traced a computed targets bounds t := by
  fun_induction run a computed bounds s with
  | case1 s e he => cases hr
  | case2 s he =>
    cases hr
    exact h
  | case3 s u hu ih => exact ih (advance_traced h hu) hr

theorem run_fails (h : Traced a computed targets bounds s)
    (hr : run a computed bounds s = .error e) : Fails a computed targets bounds e := by
  fun_induction run a computed bounds s with
  | case1 s e he =>
    cases hr
    exact advance_fails h he
  | case2 s he => cases hr
  | case3 s u hu ih => exact ih (advance_traced h hu) hr

theorem runAll_traced {ns : List NodeId} (hs : Valid a computed bounds [] s) (ho : s.opened = [])
    (h : Traced a computed targets bounds s) (hns : ∀ n ∈ ns, n ∈ targets) :
    (∀ t, runAll a computed bounds ns s = .ok t → Traced a computed targets bounds t) ∧
      ∀ e, runAll a computed bounds ns s = .error e → Fails a computed targets bounds e := by
  induction ns generalizing s with
  | nil =>
    refine ⟨fun t ht => ?_, fun e he => by cases he⟩
    cases ht
    exact h
  | cons n ns ih =>
    have hrest : ∀ k ∈ ns, k ∈ targets := fun k hk => hns k (List.mem_cons_of_mem _ hk)
    have hreach : Reaches a computed targets bounds n := .target (hns n (List.mem_cons_self ..))
    rw [runAll]
    split
    · exact ih hs ho h hrest
    · rename_i hn
      rw [← met_of_closed ho] at hn
      cases he : enter a computed bounds n s with
      | error e =>
        refine ⟨fun t ht => by simp [bind, Except.bind] at ht, fun e' he' => ?_⟩
        obtain rfl : e = e' := by simpa [bind, Except.bind] using he'
        exact enter_fails hreach he
      | ok u =>
        have hu : Traced a computed targets bounds u :=
          enter_traced h hn hreach (by simp [ho]) he
        have huv := enter_valid { hs with framed := by rw [ho]; trivial } hn he
        cases hrun : run a computed bounds u with
        | error e =>
          refine ⟨fun t ht => by simp [hrun, bind, Except.bind] at ht, fun e' he' => ?_⟩
          obtain rfl : e = e' := by simpa [hrun, bind, Except.bind] using he'
          exact run_fails hu hrun
        | ok v =>
          obtain ⟨hv, hvo, -⟩ := run_valid huv hrun
          simpa [hrun, bind, Except.bind] using ih hv hvo (run_traced hu hrun) hrest

/-- Every sequence of moves comes to an end, on whatever arena and from whatever state. -/
theorem advance_wellFounded (a : Arena α) (computed : α → Bool) (bounds : NodeSet) :
    WellFounded fun t s => advance a computed bounds s = .ok (some t) := by
  have hlex : WellFounded (InvImage (Prod.Lex (· < ·) (· < ·))
      fun s : Search => ((s.unseen a).length, s.pending)) :=
    InvImage.wf _ (Prod.lex ⟨_, Nat.lt_wfRel.wf⟩ ⟨_, Nat.lt_wfRel.wf⟩).wf
  refine Subrelation.wf (fun h => ?_) hlex
  rcases advance_lt h with hlt | ⟨heq, hlt⟩
  · exact Prod.Lex.left _ _ hlt
  · rw [InvImage, heq]
    exact Prod.Lex.right _ hlt

end Search

theorem Describes.earlier {p : Plan} (h : p.Describes a computed targets bounds) {n m : NodeId}
    (hnm : Relation.TransGen (Leads a computed bounds) n m) {before after : List NodeId}
    (horder : p.order = before ++ n :: after) : m ∈ before := by
  have hedge {n c : NodeId} (hnc : Leads a computed bounds n c) {before after : List NodeId}
      (horder : p.order = before ++ n :: after) : c ∈ before := by
    refine h.ordered before n after horder (fun hn => ?_) c hnc.2
    exact not_stops_of_expands hnc.1 ((h.sources n).mp hn).2
  induction hnm using Relation.TransGen.head_induction_on generalizing before after with
  | single hnm => exact hedge hnm horder
  | head hnc _ ih =>
    obtain ⟨front, back, rfl⟩ := List.append_of_mem (hedge hnc horder)
    apply List.mem_append_left
    apply ih
    rw [horder, List.append_assoc, List.cons_append]

theorem Describes.acyclic {p : Plan} (h : p.Describes a computed targets bounds)
    (hreach : ∀ n, Reaches a computed targets bounds n → n ∈ p.order) :
    ¬Cyclic a computed targets bounds := by
  rintro ⟨n, hn, hcycle⟩
  obtain ⟨before, after, horder⟩ := List.append_of_mem (hreach n hn)
  have hnodup := h.nodup
  rw [horder, List.nodup_append] at hnodup
  exact hnodup.2.2 n (h.earlier hcycle horder) n (List.mem_cons_self ..) rfl

theorem Describes.of_reaches {p : Plan} (h : p.Describes a computed targets bounds) {n : NodeId}
    (hn : Reaches a computed targets bounds n) : n ∈ p.order := by
  induction hn with
  | target ht => exact h.targets _ ht
  | child _ hedge ih =>
    obtain ⟨before, after, horder⟩ := List.append_of_mem ih
    rw [horder]
    exact List.mem_append_left _ (h.earlier (.single hedge) horder)

theorem build_traced :
    (∀ p, build a computed targets bounds = .ok p →
      (∀ n ∈ p.order, Reaches a computed targets bounds n) ∧
        (∀ q ∈ p.versions, q.1 ∈ p.order ∧ q.1 ∉ bounds) ∧ (p.versions.map (·.1)).Nodup) ∧
      ∀ e, build a computed targets bounds = .error e → Fails a computed targets bounds e := by
  have hempty : Search.Valid a computed bounds [] {} := Search.valid_empty
  have htraced := Search.runAll_traced hempty rfl Search.traced_empty
    fun n (hn : n ∈ targets.toList) => hn
  unfold build
  cases hr : Search.runAll a computed bounds targets.toList {} with
  | error e =>
    refine ⟨fun p hp => by simp [bind, Except.bind] at hp, fun e' he' => ?_⟩
    obtain rfl : e = e' := by simpa [bind, Except.bind] using he'
    exact htraced.2 e hr
  | ok s =>
    refine ⟨fun p hp => ?_, fun e he => by simp [bind, Except.bind, pure, Except.pure] at he⟩
    obtain rfl : _ = p := by simpa [bind, Except.bind, pure, Except.pure] using hp
    obtain ⟨-, ho, -, -⟩ := Search.runAll_valid Search.valid_empty rfl hr
    have hs := htraced.1 s hr
    have hmet := Search.met_of_closed ho
    refine ⟨fun n hn => hs.reached n (hmet ▸ List.mem_reverse.mp hn), fun q hq => ?_, ?_⟩
    · obtain ⟨hq, hb⟩ := hs.recorded q (List.mem_reverse.mp hq)
      exact ⟨List.mem_reverse.mpr (hmet ▸ hq), hb⟩
    · rw [List.map_reverse]
      exact (List.reverse_perm _).nodup_iff.mpr hs.once

theorem build_orders {p : Plan} (h : build a computed targets bounds = .ok p) :
    Orders a computed targets bounds p := by
  have hp := build_describes h
  obtain ⟨hreached, hrecorded, honce⟩ := build_traced.1 p h
  have hmembers (n : NodeId) : n ∈ p.order ↔ Reaches a computed targets bounds n :=
    ⟨hreached n, hp.of_reaches⟩
  refine ⟨hp.nodup, hmembers, ?_, ?_, ?_, honce⟩
  · intro before n after horder hn c hc
    exact hp.earlier (.single ⟨hn, hc⟩) horder
  · intro n
    rw [hp.sources, hmembers]
    refine and_congr_right fun hn => ?_
    obtain ⟨x, hx⟩ := Arena.contains_iff.mp (hp.live n ((hmembers n).mpr hn))
    simp [Stops, hx]
  · intro n v
    constructor
    · intro hv
      obtain ⟨hn, hb⟩ := hrecorded _ hv
      exact ⟨hreached n hn, hb, hp.versions _ hv⟩
    · rintro ⟨hn, hb, hv⟩
      obtain ⟨w, hw⟩ := hp.recorded n ((hmembers n).mpr hn) hb
      obtain rfl : w = v := Option.some.inj ((hp.versions _ hw).symm.trans hv)
      exact hw

/-- A plan is built exactly if every node that can be reached is live and no cycle can. -/
theorem build_ok_iff :
    (∃ p, build a computed targets bounds = .ok p) ↔
      (∀ n, Reaches a computed targets bounds n → a.contains n) ∧
        ¬Cyclic a computed targets bounds := by
  constructor
  · rintro ⟨p, hp⟩
    have hdescribes := build_describes hp
    have hreach (n : NodeId) (hn : Reaches a computed targets bounds n) := hdescribes.of_reaches hn
    exact ⟨fun n hn => hdescribes.live n (hreach n hn), hdescribes.acyclic hreach⟩
  · rintro ⟨hlive, hacyclic⟩
    cases hbuild : build a computed targets bounds with
    | ok p => exact ⟨p, rfl⟩
    | error e =>
      rcases build_traced.2 e hbuild with ⟨-, hcycle⟩ | ⟨-, n, hn, hgone⟩
      · exact absurd hcycle hacyclic
      · rw [hlive n hn] at hgone
        cases hgone

end Plan

namespace Program

variable {K D : Type}

/-- Compilation computes the part of the graph that the targets reach without going
through bounds, or tells why there is none. -/
theorem compile_orders (p : Program D) (g : Graph K D) :
    (WellFounded fun t s =>
      Plan.Search.advance g.arena (·.formula.isSome) p.sources s = .ok (some t)) ∧
    ((p.compile g).2 = .ok () ↔
      (∀ n, Plan.Reaches g.arena (·.formula.isSome) p.targets p.sources n → g.arena.contains n) ∧
        ¬Plan.Cyclic g.arena (·.formula.isSome) p.targets p.sources) ∧
    match p.compile g with
    | (q, .ok ()) => ∃ plan, q = { p with state := .compiled plan } ∧
        Plan.Orders g.arena (·.formula.isSome) p.targets p.sources plan
    | (q, .error e) => q = { p with state := .failed e } ∧
        Plan.Fails g.arena (·.formula.isSome) p.targets p.sources e := by
  refine ⟨Plan.Search.advance_wellFounded _ _ _, ?_, ?_⟩
  · rw [← Plan.build_ok_iff, compile, build]
    cases Plan.build g.arena (·.formula.isSome) p.targets p.sources with
    | ok plan => simp
    | error e => simp
  · rw [compile, build]
    cases hbuild : Plan.build g.arena (·.formula.isSome) p.targets p.sources with
    | ok plan => exact ⟨plan, rfl, Plan.build_orders hbuild⟩
    | error e => exact ⟨rfl, Plan.build_traced.2 e hbuild⟩

end Program

end GradientGraph
