import GradientGraph.Plan.Search

/-!
# The order of a plan

The search closes a node only when all its children are closed, and meets no
node twice. This is kept as an invariant of its moves; a plan inherits it when
no node is open any more.
-/

set_option autoImplicit false

namespace GradientGraph

namespace Plan.Search

variable {α : Type}

def met (s : Search) : List NodeId := s.opened.map (·.node) ++ s.closed

theorem isOpen_iff {s : Search} {n : NodeId} : s.isOpen n ↔ n ∈ s.opened.map (·.node) := by
  simp [isOpen]

theorem mem_met {s : Search} {n : NodeId} : n ∈ s.met ↔ s.isOpen n ∨ n ∈ s.closed := by
  rw [met, List.mem_append, isOpen_iff]

end Plan.Search

namespace Plan

variable {α : Type} (a : Arena α) (computed : α → Bool) (bounds : NodeSet)

def childrenOf (n : NodeId) : List NodeId := (a.children? n).getD []

def Stops (n : NodeId) : Prop := n ∈ bounds ∨ ∀ x, a.node? n = some x → computed x.content = false

/-- Whether every child of an open node is closed, still to be visited, or open
further in. The frames stand innermost first, behind the nodes in `above`. -/
def Framed (closed : List NodeId) : (above : List NodeId) → List Frame → Prop
  | _, [] => True
  | above, f :: rest =>
    (∀ c ∈ childrenOf a f.node, c ∈ closed ∨ c ∈ f.children ∨ c ∈ above) ∧
      Framed closed (f.node :: above) rest

/-- What holds between the moves of a search, while `above` is about to be met. -/
structure Search.Valid (above : List NodeId) (s : Search) : Prop where
  framed : Framed a s.closed above s.opened
  distinct : s.met.Nodup
  live : ∀ n ∈ s.met, a.contains n
  sources : ∀ n, n ∈ s.sources ↔ n ∈ s.closed ∧ Stops a computed bounds n
  expanded : ∀ n, s.isOpen n → ¬Stops a computed bounds n
  ordered : ∀ n earlier, n :: earlier <:+ s.closed → ¬Stops a computed bounds n →
    ∀ c ∈ childrenOf a n, c ∈ earlier
  versions : ∀ p ∈ s.versions, a.version? p.1 = some p.2
  recorded : ∀ n ∈ s.met, n ∉ bounds → ∃ v, (n, v) ∈ s.versions

variable {a computed bounds}

theorem Framed.mono {closed closed' above above' : List NodeId} {fs : List Frame}
    (h : Framed a closed above fs)
    (hsub : ∀ n, n ∈ closed ∨ n ∈ above → n ∈ closed' ∨ n ∈ above') :
    Framed a closed' above' fs := by
  induction fs generalizing above above' with
  | nil => trivial
  | cons f rest ih =>
    refine ⟨?_, ih h.2 ?_⟩
    · intro c hc
      rcases h.1 c hc with h | h | h
      · exact (hsub c (.inl h)).imp_right .inr
      · exact .inr (.inl h)
      · exact (hsub c (.inr h)).imp_right .inr
    · intro n hn
      simp only [List.mem_cons] at hn ⊢
      rcases hn with h | h | h
      · exact (hsub n (.inl h)).imp_right .inr
      · exact .inr (.inl h)
      · exact (hsub n (.inr h)).imp_right .inr

namespace Search

variable {s t : Search} {n : NodeId} {above : List NodeId}

theorem valid_empty : Valid a computed bounds above {} where
  framed := trivial
  distinct := List.nodup_nil
  live := by simp [met]
  sources := by simp
  expanded := by simp [isOpen]
  ordered := by simp
  versions := by simp
  recorded := by simp [met]

theorem enter_cases (h : enter a computed bounds n s = .ok t) :
    ∃ x, a.node? n = some x ∧
      t.versions = (if n ∈ bounds then s.versions else (n, x.version) :: s.versions) ∧
      (Stops a computed bounds n ∧ t.opened = s.opened ∧ t.closed = n :: s.closed ∧
          t.sources = s.sources.insert n ∨
        ¬Stops a computed bounds n ∧ t.opened = ⟨n, x.children⟩ :: s.opened ∧
          t.closed = s.closed ∧ t.sources = s.sources) := by
  unfold enter at h
  cases hx : a.node? n with
  | none => simp [hx] at h
  | some x =>
    have hstops : Stops a computed bounds n ↔ n ∈ bounds ∨ computed x.content = false := by
      simp [Stops, hx]
    simp only [hx] at h
    refine ⟨x, rfl, ?_⟩
    split at h
    · cases h
      exact ⟨rfl, .inl ⟨hstops.mpr ‹_›, rfl, rfl, rfl⟩⟩
    · cases h
      exact ⟨rfl, .inr ⟨fun hs => absurd (hstops.mp hs) ‹_›, rfl, rfl, rfl⟩⟩

theorem advance_cases (h : advance a computed bounds s = .ok (some t)) :
    (∃ n rest, s.opened = ⟨n, []⟩ :: rest ∧
      t = { s with opened := rest, closed := n :: s.closed }) ∨
    ∃ n c cs rest, s.opened = ⟨n, c :: cs⟩ :: rest ∧ s.isOpen c = false ∧
      (c ∈ s.closed ∧ t = { s with opened := ⟨n, cs⟩ :: rest } ∨
        c ∉ s.closed ∧
          enter a computed bounds c { s with opened := ⟨n, cs⟩ :: rest } = .ok t) := by
  unfold advance at h
  split at h
  · simp at h
  · rename_i n rest hs
    exact .inl ⟨n, rest, hs, by simpa using h.symm⟩
  · rename_i n c cs rest hs
    refine .inr ⟨n, c, cs, rest, hs, ?_⟩
    split at h
    · simp at h
    · rename_i ho
      refine ⟨by simpa using ho, ?_⟩
      split at h
      · exact .inl ⟨‹_›, by simpa using h.symm⟩
      · refine .inr ⟨‹_›, ?_⟩
        cases he : enter a computed bounds c { s with opened := ⟨n, cs⟩ :: rest } with
        | error e => simp [he, Except.map] at h
        | ok u =>
          obtain rfl : u = t := by simpa [he, Except.map] using h
          rfl

theorem met_enter (h : enter a computed bounds n s = .ok t) (k : NodeId) :
    k ∈ t.met ↔ k = n ∨ k ∈ s.met := by
  obtain ⟨x, -, -, ⟨-, ho, hc, -⟩ | ⟨-, ho, hc, -⟩⟩ := enter_cases h
  · rw [met, met, ho, hc]
    simp only [List.mem_append, List.mem_cons]
    exact or_left_comm
  · rw [met, met, ho, hc]
    simp

theorem enter_distinct (h : Valid a computed bounds above s) (hn : n ∉ s.met)
    (he : enter a computed bounds n s = .ok t) : t.met.Nodup := by
  have hcons : (n :: s.met).Nodup := List.nodup_cons.mpr ⟨hn, h.distinct⟩
  obtain ⟨x, -, -, ⟨-, ho, hc, -⟩ | ⟨-, ho, hc, -⟩⟩ := enter_cases he
  · rw [met, ho, hc]
    exact (List.perm_middle.nodup_iff).mpr hcons
  · rw [met, ho, hc]
    exact hcons

theorem enter_live (h : Valid a computed bounds above s)
    (he : enter a computed bounds n s = .ok t) : ∀ k ∈ t.met, a.contains k := by
  obtain ⟨x, hx, -, -⟩ := enter_cases he
  intro k hk
  rcases (met_enter he k).mp hk with rfl | hk
  · exact Arena.contains_iff.mpr ⟨x, hx⟩
  · exact h.live k hk

theorem enter_versions (h : Valid a computed bounds above s)
    (he : enter a computed bounds n s = .ok t) :
    ∀ p ∈ t.versions, a.version? p.1 = some p.2 := by
  obtain ⟨x, hx, hversions, -⟩ := enter_cases he
  rw [hversions]
  split
  · exact h.versions
  · intro p hp
    rcases List.mem_cons.mp hp with rfl | hp
    · simp [Arena.version?, hx]
    · exact h.versions p hp

theorem enter_recorded (h : Valid a computed bounds above s)
    (he : enter a computed bounds n s = .ok t) :
    ∀ k ∈ t.met, k ∉ bounds → ∃ v, (k, v) ∈ t.versions := by
  obtain ⟨x, -, hversions, -⟩ := enter_cases he
  intro k hk hb
  rw [hversions]
  rcases (met_enter he k).mp hk with rfl | hk
  · rw [if_neg hb]
    exact ⟨x.version, List.mem_cons_self ..⟩
  · obtain ⟨v, hv⟩ := h.recorded k hk hb
    split
    · exact ⟨v, hv⟩
    · exact ⟨v, List.mem_cons_of_mem _ hv⟩

theorem enter_valid (h : Valid a computed bounds [n] s) (hn : n ∉ s.met)
    (he : enter a computed bounds n s = .ok t) : Valid a computed bounds [] t := by
  have hdistinct := enter_distinct h hn he
  have hlive := enter_live h he
  have hversions := enter_versions h he
  have hrecorded := enter_recorded h he
  obtain ⟨x, hx, -, ⟨hstops, ho, hc, hs⟩ | ⟨hstops, ho, hc, hs⟩⟩ := enter_cases he
  -- the search stops at the node, which is closed at once
  · refine ⟨?_, hdistinct, hlive, ?_, ?_, ?_, hversions, hrecorded⟩
    · rw [ho, hc]
      apply h.framed.mono
      intro k hk
      simpa [or_comm] using hk
    · intro k
      rw [hs, hc, NodeSet.mem_insert, h.sources, List.mem_cons]
      constructor
      · rintro (rfl | hk)
        · exact ⟨.inl rfl, hstops⟩
        · exact ⟨.inr hk.1, hk.2⟩
      · rintro ⟨rfl | hk, hk'⟩
        · exact .inl rfl
        · exact .inr ⟨hk, hk'⟩
    · intro k hk
      rw [isOpen_iff, ho, ← isOpen_iff] at hk
      exact h.expanded k hk
    · intro k earlier hsuffix hk
      rw [hc, List.suffix_cons_iff] at hsuffix
      rcases hsuffix with heq | hsuffix
      · cases heq
        exact absurd hstops hk
      · exact h.ordered k earlier hsuffix hk
  -- the node is opened, and nothing is closed
  · refine ⟨?_, hdistinct, hlive, ?_, ?_, ?_, hversions, hrecorded⟩
    · rw [ho, hc]
      refine ⟨?_, h.framed⟩
      intro c hcn
      rw [childrenOf, Arena.children?, hx] at hcn
      exact .inr (.inl hcn)
    · rw [hs, hc]
      exact h.sources
    · intro k hk
      rw [isOpen_iff, ho, List.map_cons, List.mem_cons] at hk
      rcases hk with rfl | hk
      · exact hstops
      · exact h.expanded k (isOpen_iff.mpr hk)
    · rw [hc]
      exact h.ordered

theorem valid_next {m c : NodeId} {cs : List NodeId} {rest : List Frame}
    (h : Valid a computed bounds [] s) (hs : s.opened = ⟨m, c :: cs⟩ :: rest) :
    Valid a computed bounds [c] { s with opened := ⟨m, cs⟩ :: rest } := by
  have hmet : met { s with opened := ⟨m, cs⟩ :: rest } = s.met := by simp [met, hs]
  have hopen (k : NodeId) : isOpen { s with opened := ⟨m, cs⟩ :: rest } k = s.isOpen k := by
    simp [isOpen, hs]
  refine ⟨?_, hmet ▸ h.distinct, hmet ▸ h.live, h.sources, ?_, h.ordered, h.versions,
    hmet ▸ h.recorded⟩
  · have hf := h.framed
    rw [hs] at hf
    refine ⟨?_, hf.2.mono ?_⟩
    · intro k hk
      rcases hf.1 k hk with h | h | h
      · exact .inl h
      · rcases List.mem_cons.mp h with rfl | h
        · exact .inr (.inr (List.mem_cons_self ..))
        · exact .inr (.inl h)
      · exact absurd h List.not_mem_nil
    · intro k hk
      simp only [List.mem_cons, List.not_mem_nil, or_false] at hk ⊢
      rcases hk with h | h
      · exact .inl h
      · exact .inr (.inl h)
  · intro k hk
    exact h.expanded k (hopen k ▸ hk)

theorem valid_close {m : NodeId} {rest : List Frame} (h : Valid a computed bounds [] s)
    (hs : s.opened = ⟨m, []⟩ :: rest) :
    Valid a computed bounds [] { s with opened := rest, closed := m :: s.closed } := by
  have hperm : List.Perm (met { s with opened := rest, closed := m :: s.closed }) s.met := by
    simp only [met, hs, List.map_cons, List.cons_append]
    exact List.perm_middle
  have hopen (k : NodeId) : s.isOpen k ↔ k = m ∨ k ∈ rest.map (·.node) := by
    rw [isOpen_iff, hs, List.map_cons, List.mem_cons]
  have hm : ¬Stops a computed bounds m := h.expanded m ((hopen m).mpr (.inl rfl))
  have hf := h.framed
  rw [hs] at hf
  refine ⟨?_, hperm.nodup_iff.mpr h.distinct, ?_, ?_, ?_, ?_, h.versions, ?_⟩
  · apply hf.2.mono
    intro k hk
    simpa [or_comm] using hk
  · intro k hk
    exact h.live k (hperm.mem_iff.mp hk)
  · intro k
    rw [h.sources, List.mem_cons]
    constructor
    · rintro ⟨hk, hk'⟩
      exact ⟨.inr hk, hk'⟩
    · rintro ⟨rfl | hk, hk'⟩
      · exact absurd hk' hm
      · exact ⟨hk, hk'⟩
  · intro k hk
    rw [isOpen_iff] at hk
    exact h.expanded k ((hopen k).mpr (.inr hk))
  · intro k earlier hsuffix hk c hc
    rw [List.suffix_cons_iff] at hsuffix
    rcases hsuffix with heq | hsuffix
    · cases heq
      -- all children were visited, and none can still be open
      rcases hf.1 c hc with h | h | h
      · exact h
      · exact absurd h List.not_mem_nil
      · exact absurd h List.not_mem_nil
    · exact h.ordered k earlier hsuffix hk c hc
  · intro k hk
    exact h.recorded k (hperm.mem_iff.mp hk)

theorem advance_valid (h : Valid a computed bounds [] s)
    (ha : advance a computed bounds s = .ok (some t)) : Valid a computed bounds [] t := by
  obtain ⟨m, rest, hs, rfl⟩ | ⟨m, c, cs, rest, hs, ho, ⟨hc, rfl⟩ | ⟨hc, he⟩⟩ := advance_cases ha
  · exact valid_close h hs
  · have hnext := valid_next h hs
    refine { hnext with framed := hnext.framed.mono ?_ }
    intro k hk
    simp only [List.mem_singleton] at hk
    rcases hk with hk | rfl
    · exact .inl hk
    · exact .inl hc
  · apply enter_valid (valid_next h hs) _ he
    rw [mem_met]
    simp only [isOpen, hs, List.any_cons] at ho ⊢
    simpa [hc] using ho

theorem met_advance (ha : advance a computed bounds s = .ok (some t)) {k : NodeId}
    (hk : k ∈ s.met) : k ∈ t.met := by
  obtain ⟨m, rest, hs, rfl⟩ | ⟨m, c, cs, rest, hs, ho, ⟨hc, rfl⟩ | ⟨hc, he⟩⟩ := advance_cases ha
  · simp only [met, hs, List.map_cons, List.cons_append] at hk ⊢
    exact List.perm_middle.mem_iff.mpr hk
  · simpa [met, hs] using hk
  · apply (met_enter he k).mpr
    simp only [met, hs, List.map_cons] at hk ⊢
    exact .inr hk

theorem opened_of_advance (h : advance a computed bounds s = .ok none) : s.opened = [] := by
  unfold advance at h
  split at h
  · assumption
  · cases h
  · rename_i m c cs rest hs
    split at h
    · cases h
    · split at h
      · cases h
      · cases he : enter a computed bounds c { s with opened := ⟨m, cs⟩ :: rest } with
        | error e => simp [he, Except.map] at h
        | ok u => simp [he, Except.map] at h

theorem run_next (h : advance a computed bounds s = .ok (some t)) :
    run a computed bounds s = run a computed bounds t := by
  rw [run]
  split
  · rename_i e he
    rw [h] at he
    cases he
  · rename_i he
    rw [h] at he
    cases he
  · rename_i u he
    rw [h] at he
    cases he
    rfl

theorem run_done (h : advance a computed bounds s = .ok none) :
    run a computed bounds s = .ok s := by
  rw [run]
  split
  · rename_i e he
    rw [h] at he
    cases he
  · rfl
  · rename_i u he
    rw [h] at he
    cases he

theorem runAll_next {n : NodeId} {ns : List NodeId} {u : Search} (hn : n ∉ s.closed)
    (henter : enter a computed bounds n s = .ok t) (hrun : run a computed bounds t = .ok u) :
    runAll a computed bounds (n :: ns) s = runAll a computed bounds ns u := by
  rw [runAll, if_neg hn, henter]
  change (run a computed bounds t).bind _ = _
  rw [hrun]
  rfl

/-- A search that comes to an end has closed all that it met. -/
theorem run_valid (h : Valid a computed bounds [] s) (hr : run a computed bounds s = .ok t) :
    Valid a computed bounds [] t ∧ t.opened = [] ∧ ∀ k ∈ s.met, k ∈ t.met := by
  fun_induction run a computed bounds s with
  | case1 s e he => cases hr
  | case2 s he =>
    cases hr
    exact ⟨h, opened_of_advance he, fun _ hk => hk⟩
  | case3 s u hu ih =>
    obtain ⟨ht, ho, hmet⟩ := ih (advance_valid h hu) hr
    exact ⟨ht, ho, fun k hk => hmet k (met_advance hu hk)⟩

theorem met_of_closed (h : s.opened = []) : s.met = s.closed := by simp [met, h]

theorem runAll_valid {ns : List NodeId} (h : Valid a computed bounds [] s)
    (ho : s.opened = []) (hr : runAll a computed bounds ns s = .ok t) :
    Valid a computed bounds [] t ∧ t.opened = [] ∧ (∀ k ∈ ns, k ∈ t.closed) ∧
      ∀ k ∈ s.closed, k ∈ t.closed := by
  induction ns generalizing s with
  | nil =>
    cases hr
    exact ⟨h, ho, by simp, fun _ hk => hk⟩
  | cons n ns ih =>
    rw [runAll] at hr
    split at hr
    · rename_i hn
      obtain ⟨ht, hto, hns, hsub⟩ := ih h ho hr
      refine ⟨ht, hto, ?_, hsub⟩
      intro k hk
      rcases List.mem_cons.mp hk with rfl | hk
      · exact hsub k hn
      · exact hns k hk
    · rename_i hn
      cases he : enter a computed bounds n s with
      | error e => simp [he, bind, Except.bind] at hr
      | ok u =>
        cases hrun : run a computed bounds u with
        | error e => simp [he, hrun, bind, Except.bind] at hr
        | ok v =>
          have hrest : runAll a computed bounds ns v = .ok t := by
            simpa [he, hrun, bind, Except.bind] using hr
          -- no node is open between two targets
          have hmeet : Valid a computed bounds [n] s :=
            { h with framed := by rw [ho]; trivial }
          have hu := enter_valid hmeet (by rwa [met_of_closed ho]) he
          obtain ⟨hv, hvo, hmet⟩ := run_valid hu hrun
          obtain ⟨ht, hto, hns, hsub⟩ := ih hv hvo hrest
          rw [met_of_closed hvo] at hmet
          refine ⟨ht, hto, ?_, ?_⟩
          · intro k hk
            rcases List.mem_cons.mp hk with rfl | hk
            · exact hsub k (hmet k ((met_enter he k).mpr (.inl rfl)))
            · exact hns k hk
          · intro k hk
            rw [← met_of_closed ho] at hk
            exact hsub k (hmet k ((met_enter he k).mpr (.inr hk)))

end Search

theorem build_of_runAll {targets : NodeSet} {ns : List NodeId} {s : Search} {p : Plan}
    (hns : targets.toList = ns) (h : Search.runAll a computed bounds ns {} = .ok s)
    (hp : ⟨s.closed.reverse, s.sources, s.versions.reverse⟩ = p) :
    build a computed targets bounds = .ok p := by
  rw [build, hns, h, ← hp]
  rfl

/-- What a plan tells of the arena that it was read from. -/
structure Describes (p : Plan) (a : Arena α) (computed : α → Bool)
    (targets bounds : NodeSet) : Prop where
  nodup : p.order.Nodup
  live : ∀ n ∈ p.order, a.contains n
  targets : ∀ n ∈ targets, n ∈ p.order
  sources : ∀ n, n ∈ p.sources ↔ n ∈ p.order ∧ Stops a computed bounds n
  ordered : ∀ before n after, p.order = before ++ n :: after → n ∉ p.sources →
    ∀ c ∈ childrenOf a n, c ∈ before
  versions : ∀ q ∈ p.versions, a.version? q.1 = some q.2
  recorded : ∀ n ∈ p.order, n ∉ bounds → ∃ v, (n, v) ∈ p.versions

theorem build_describes {p : Plan} {targets : NodeSet}
    (h : build a computed targets bounds = .ok p) : p.Describes a computed targets bounds := by
  unfold build at h
  cases hr : Search.runAll a computed bounds targets.toList {} with
  | error e => simp [hr, bind, Except.bind] at h
  | ok s =>
    obtain rfl : _ = p := by simpa [hr, bind, Except.bind, pure, Except.pure] using h
    obtain ⟨hs, ho, htargets, -⟩ := Search.runAll_valid Search.valid_empty rfl hr
    have hmet := Search.met_of_closed ho
    have hdistinct := hs.distinct
    have hlive := hs.live
    have hrecorded := hs.recorded
    rw [hmet] at hdistinct hlive hrecorded
    refine ⟨(List.reverse_perm _).nodup_iff.mpr hdistinct, ?_, ?_, ?_, ?_, ?_, ?_⟩
    · simpa using hlive
    · intro n hn
      exact List.mem_reverse.mpr (htargets n hn)
    · simpa using hs.sources
    · intro before n after horder hn c hc
      have hclosed : s.closed = after.reverse ++ n :: before.reverse := by
        have hreverse : s.closed.reverse = before ++ n :: after := horder
        rw [← List.reverse_reverse s.closed, hreverse]
        simp
      have hstops : ¬Stops a computed bounds n := by
        intro hstops
        exact hn ((hs.sources n).mpr ⟨by simp [hclosed], hstops⟩)
      have hmem := hs.ordered n before.reverse ⟨after.reverse, hclosed.symm⟩ hstops c hc
      simpa using hmem
    · simpa using hs.versions
    · simpa using hrecorded

end Plan

end GradientGraph
