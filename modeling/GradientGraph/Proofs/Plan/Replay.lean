import GradientGraph.Proofs.Plan.Order

/-!
# Searching another arena

A search reads of a node no more than its version, its edges and whether it is
computed, and of a bound only that it is live. On an arena that agrees in this at
every node met it makes the same moves.
-/

set_option autoImplicit false

namespace GradientGraph
namespace Plan

variable {α : Type}

/-- Whether a search sees the same at the node in both arenas. -/
def Alike (a b : Arena α) (computed : α → Bool) (bounds : NodeSet) (n : NodeId) : Prop :=
  ∃ x y, a.node? n = some x ∧ b.node? n = some y ∧
    (n ∈ bounds ∨ x.version = y.version ∧ x.children = y.children ∧
      computed x.content = computed y.content)

namespace Search

variable {a b : Arena α} {computed : α → Bool} {bounds : NodeSet} {s t : Search}

theorem enter_alike {n : NodeId} (h : Alike a b computed bounds n) :
    enter b computed bounds n s = enter a computed bounds n s := by
  obtain ⟨x, y, hx, hy, hb | ⟨hv, hc, hf⟩⟩ := h
  · simp [enter, hx, hy, hb]
  · simp [enter, hx, hy, hv, hc, hf]

theorem advance_alike (h : advance a computed bounds s = .ok (some t))
    (ha : ∀ n ∈ t.met, Alike a b computed bounds n) :
    advance b computed bounds s = .ok (some t) := by
  obtain ⟨m, rest, hs, rfl⟩ | ⟨m, c, cs, rest, hs, ho, ⟨hc, rfl⟩ | ⟨hc, he⟩⟩ := advance_cases h
  · simp [advance, hs]
  · simp [advance, hs, ho, hc]
  · have hmet : c ∈ t.met := (met_enter he c).mpr (.inl rfl)
    rw [← enter_alike (ha c hmet)] at he
    simp [advance, hs, ho, hc, he, Except.map]

theorem met_run (h : run a computed bounds s = .ok t) {n : NodeId} (hn : n ∈ s.met) :
    n ∈ t.met := by
  fun_induction run a computed bounds s with
  | case1 s e he => cases h
  | case2 s he =>
    cases h
    exact hn
  | case3 s u hu ih => exact ih h (met_advance hu hn)

theorem advance_of_closed (h : s.opened = []) : advance a computed bounds s = .ok none := by
  simp [advance, h]

theorem run_alike (h : run a computed bounds s = .ok t)
    (ha : ∀ n ∈ t.met, Alike a b computed bounds n) : run b computed bounds s = .ok t := by
  fun_induction run a computed bounds s with
  | case1 s e he => cases h
  | case2 s he =>
    cases h
    exact run_done (advance_of_closed (opened_of_advance he))
  | case3 s u hu ih =>
    have hmet : ∀ n ∈ u.met, Alike a b computed bounds n := fun n hn => ha n (met_run h hn)
    rw [run_next (advance_alike hu hmet)]
    exact ih h

theorem runAll_alike {ns : List NodeId} (h : runAll a computed bounds ns s = .ok t)
    (ha : ∀ n ∈ t.met, Alike a b computed bounds n) :
    runAll b computed bounds ns s = .ok t ∧ ∀ n ∈ s.met, n ∈ t.met := by
  induction ns generalizing s with
  | nil =>
    cases h
    exact ⟨rfl, fun _ hn => hn⟩
  | cons n ns ih =>
    rw [runAll] at h ⊢
    split at h
    · rename_i hn
      rw [if_pos hn]
      exact ih h
    · rename_i hn
      rw [if_neg hn]
      cases he : enter a computed bounds n s with
      | error e => simp [he, bind, Except.bind] at h
      | ok u =>
        cases hrun : run a computed bounds u with
        | error e => simp [he, hrun, bind, Except.bind] at h
        | ok v =>
          have hrest : runAll a computed bounds ns v = .ok t := by
            simpa [he, hrun, bind, Except.bind] using h
          obtain ⟨hb, hsub⟩ := ih hrest
          have hmet : ∀ k ∈ u.met, k ∈ t.met := fun k hk => hsub k (met_run hrun hk)
          have hn' := ha n (hmet n ((met_enter he n).mpr (.inl rfl)))
          have hrun' := run_alike hrun fun k hk => ha k (hsub k hk)
          refine ⟨?_, fun k hk => hmet k ((met_enter he k).mpr (.inr hk))⟩
          simpa [enter_alike hn', he, hrun', bind, Except.bind] using hb

end Search

/-- On an arena that agrees with the one a plan was read from, the same plan is read. -/
theorem build_alike {a b : Arena α} {computed : α → Bool} {targets bounds : NodeSet} {p : Plan}
    (h : build a computed targets bounds = .ok p)
    (ha : ∀ n ∈ p.order, Alike a b computed bounds n) :
    build b computed targets bounds = .ok p := by
  unfold build at h ⊢
  cases hr : Search.runAll a computed bounds targets.toList {} with
  | error e => simp [hr, bind, Except.bind] at h
  | ok s =>
    obtain rfl : _ = p := by simpa [hr, bind, Except.bind, pure, Except.pure] using h
    obtain ⟨-, ho, -, -⟩ := Search.runAll_valid Search.valid_empty rfl hr
    obtain ⟨hb, -⟩ := Search.runAll_alike hr fun n hn => by
      rw [Search.met_of_closed ho] at hn
      exact ha n (List.mem_reverse.mpr hn)
    simp [hb, bind, Except.bind, pure, Except.pure]

end Plan
end GradientGraph
