import GradientGraph.Proofs.Node.Change

/-!
# Vacant slots

The slots that are listed as vacant hold no node, and each is listed once. An
insertion then displaces no node, and a live node has an identity of its own.
There are no more slots than nodes were inserted.
-/

set_option autoImplicit false

namespace GradientGraph

namespace Arena

variable {α : Type}

/-- Whether the list of vacant slots is what it says. -/
structure Packed (a : Arena α) : Prop where
  empty : ∀ i ∈ a.vacant, ∃ generation, a.slots[i]? = some ⟨generation, none⟩
  nodup : a.vacant.Nodup
  slots_le : a.slots.size ≤ a.inserted

variable {a : Arena α}

theorem packed_empty : ({} : Arena α).Packed where
  empty := by simp
  nodup := .nil
  slots_le := Nat.le_refl 0

theorem Packed.modify (h : a.Packed) (n : NodeId) (f : Node α → Node α) :
    (a.modify n f).Packed := by
  have hvacant : (a.modify n f).vacant = a.vacant := by
    unfold Arena.modify
    split <;> rfl
  constructor
  · intro i hi
    rw [hvacant] at hi
    obtain ⟨generation, hs⟩ := h.empty i hi
    refine ⟨generation, ?_⟩
    rw [slots_modify, hs, Option.map_some]
    split <;> rfl
  · rw [hvacant]
    exact h.nodup
  · unfold Arena.modify
    split
    · simpa using h.slots_le
    · exact h.slots_le

theorem Packed.remove (h : a.Packed) (n : NodeId) : (a.remove n).Packed := by
  unfold Arena.remove
  split
  · rename_i hn
    obtain ⟨x, hx⟩ := contains_iff.mp hn
    rw [node?_eq_some] at hx
    constructor
    · intro i hi
      rw [Array.getElem?_setIfInBounds]
      rcases List.mem_cons.mp hi with rfl | hi
      · obtain ⟨hlt, -⟩ := Array.getElem?_eq_some_iff.mp hx
        exact ⟨n.generation, by simp [hlt]⟩
      · obtain ⟨generation, hs⟩ := h.empty i hi
        refine ⟨generation, ?_⟩
        have hne : n.index ≠ i := by
          rintro rfl
          rw [hx] at hs
          cases hs
        rw [if_neg hne, hs]
    · refine List.nodup_cons.mpr ⟨?_, h.nodup⟩
      intro hmem
      obtain ⟨generation, hs⟩ := h.empty n.index hmem
      rw [hx] at hs
      cases hs
    · simpa using h.slots_le
  · exact h

theorem Packed.insert (h : a.Packed) (content : α) : (a.insert content).2.Packed := by
  unfold Arena.insert
  split
  · rename_i hvacant
    exact ⟨by simp [hvacant], by simp [hvacant], by simpa using h.slots_le⟩
  · rename_i i rest hvacant
    have hnodup := h.nodup
    rw [hvacant, List.nodup_cons] at hnodup
    refine ⟨?_, hnodup.2, by simpa using Nat.le_succ_of_le h.slots_le⟩
    intro k hk
    obtain ⟨generation, hs⟩ := h.empty k (hvacant ▸ List.mem_cons_of_mem i hk)
    have hne : i ≠ k := fun hik => hnodup.1 (hik ▸ hk)
    exact ⟨generation, by rw [Array.getElem?_setIfInBounds, if_neg hne, hs]⟩

theorem Packed.index_lt (h : a.Packed) {n : NodeId} (hn : a.contains n) :
    n.index < a.inserted := by
  obtain ⟨x, hx⟩ := contains_iff.mp hn
  obtain ⟨hlt, -⟩ := Array.getElem?_eq_some_iff.mp (node?_eq_some.mp hx)
  exact Nat.lt_of_lt_of_le hlt h.slots_le

theorem Packed.fresh (h : a.Packed) (content : α) : a.node? (a.insert content).1 = none := by
  unfold Arena.insert
  split
  · simp [node?]
  · rename_i i rest hvacant
    obtain ⟨generation, hs⟩ := h.empty i (hvacant ▸ List.mem_cons_self ..)
    simp [node?, hs]

theorem Packed.node?_insert (h : a.Packed) (content : α) (m : NodeId) :
    (a.insert content).2.node? m =
      if m = (a.insert content).1 then some { content } else a.node? m := by
  unfold Arena.insert
  split
  · by_cases hi : m.index = a.slots.size
    · by_cases hg : m.generation = 0
      · have hm : m = ⟨a.slots.size, 0⟩ := by
          rw [← hi, ← hg]
        simp [node?, hm]
      · have hm : m ≠ ⟨a.slots.size, 0⟩ := fun hm => hg (by rw [hm])
        simp [node?, hi, Ne.symm hg, hm]
    · have hm : m ≠ ⟨a.slots.size, 0⟩ := fun hm => hi (by rw [hm])
      simp [node?, Array.getElem?_push, hi, hm]
  · rename_i i rest hvacant
    obtain ⟨generation, hs⟩ := h.empty i (hvacant ▸ List.mem_cons_self ..)
    obtain ⟨hlt, -⟩ := Array.getElem?_eq_some_iff.mp hs
    simp only [hs, Option.map_some, Option.getD_some]
    rw [node?, Array.getElem?_setIfInBounds]
    by_cases hi : i = m.index
    · subst hi
      by_cases hg : generation + 1 = m.generation
      · simp [hg, hlt]
      · have hm : m ≠ ⟨m.index, generation + 1⟩ := fun hm => hg (by rw [hm])
        have hnone : a.node? m = none := by simp [node?, hs]
        simp [hnone, hg, hlt, hm]
    · have hm : m ≠ ⟨i, generation + 1⟩ := fun hm => hi (by rw [hm])
      simp [node?, hi, hm]

end Arena

end GradientGraph
