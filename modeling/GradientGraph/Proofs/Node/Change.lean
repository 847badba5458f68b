import GradientGraph.Node.Arena

/-!
# Changes of an arena

What a node looks like after an operation, by what it looked like before.
-/

set_option autoImplicit false

namespace GradientGraph

theorem foldl_distinct (cs ks : List NodeId) (h : (ks ++ cs).Nodup) :
    cs.foldl (fun ks c => if c ∈ ks then ks else ks ++ [c]) ks = ks ++ cs := by
  induction cs generalizing ks with
  | nil => simp
  | cons c cs ih =>
    have hc : c ∉ ks := by
      intro hc
      exact (List.nodup_append.mp h).2.2 c hc c (List.mem_cons_self ..) rfl
    rw [List.foldl_cons, if_neg hc, ih (ks ++ [c]) (by simpa using h), List.append_assoc]
    rfl

namespace Arena

variable {α : Type}

theorem node?_modify (a : Arena α) (n m : NodeId) (f : Node α → Node α) :
    (a.modify n f).node? m = if m = n then (a.node? m).map f else a.node? m := by
  by_cases hn : a.contains n
  · obtain ⟨x, hx⟩ := contains_iff.mp hn
    rw [node?_eq_some] at hx
    simp only [modify, hn, if_true]
    by_cases hm : m = n
    · subst hm
      simp [node?, Array.getElem?_modify, hx]
    · rw [if_neg hm]
      by_cases hi : n.index = m.index
      · have hg : n.generation ≠ m.generation := by
          intro hg
          apply hm
          cases m
          cases n
          simp_all
        simp [node?, Array.getElem?_modify, ← hi, hx, hg]
      · simp [node?, Array.getElem?_modify, hi]
  · have hnone : a.node? n = none := by
      simpa [contains] using hn
    by_cases hm : m = n
    · subst hm
      simp [modify, hn, hnone]
    · simp [modify, hn, hm]

theorem slots_modify (a : Arena α) (n : NodeId) (f : Node α → Node α) (i : Nat) :
    (a.modify n f).slots[i]? = a.slots[i]?.map fun s =>
      if n.index = i ∧ s.generation = n.generation then { s with node := s.node.map f } else s := by
  cases hs : a.slots[i]? with
  | none =>
    unfold modify
    split
    · rw [Array.getElem?_modify, hs]
      split <;> rfl
    · exact hs
  | some s =>
    by_cases hn : a.contains n
    · obtain ⟨x, hx⟩ := contains_iff.mp hn
      rw [node?_eq_some] at hx
      rw [modify, if_pos hn, Array.getElem?_modify, hs]
      by_cases hi : n.index = i
      · subst hi
        obtain rfl := Option.some.inj (hx.symm.trans hs)
        simp
      · simp [hi]
    · -- a slot of that generation is vacant
      rw [modify, if_neg hn, hs, Option.map_some]
      split
      · rename_i hcond
        obtain ⟨hi, hg⟩ := hcond
        have hvacant : s.node = none := by
          rw [contains, Option.not_isSome_iff_eq_none, node?, hi, hs] at hn
          simpa [hg] using hn
        rw [hvacant, Option.map_none, ← hvacant]
      · rfl

theorem node?_of_insert {a : Arena α} {content : α} {n : NodeId} {x : Node α}
    (h : (a.insert content).2.node? n = some x) : x = { content } ∨ a.node? n = some x := by
  rw [node?_eq_some] at h
  unfold insert at h
  split at h
  · rw [Array.getElem?_push] at h
    split at h
    · have hnode := congrArg Slot.node (Option.some.inj h)
      exact .inl (Option.some.inj hnode).symm
    · exact .inr (node?_eq_some.mpr h)
  · rw [Array.getElem?_setIfInBounds] at h
    split at h
    · split at h
      · have hnode := congrArg Slot.node (Option.some.inj h)
        exact .inl (Option.some.inj hnode).symm
      · cases h
    · exact .inr (node?_eq_some.mpr h)

theorem node?_of_remove {a : Arena α} {m n : NodeId} {x : Node α}
    (h : (a.remove m).node? n = some x) : a.node? n = some x := by
  unfold remove at h
  split at h
  · rw [node?_eq_some, Array.getElem?_setIfInBounds] at h
    split at h
    · split at h
      · cases congrArg Slot.node (Option.some.inj h)
      · cases h
    · exact node?_eq_some.mpr h
  · exact h

theorem node?_remove (a : Arena α) (n m : NodeId) :
    (a.remove n).node? m = if m = n then none else a.node? m := by
  by_cases hn : a.contains n
  · obtain ⟨x, hx⟩ := contains_iff.mp hn
    rw [node?_eq_some] at hx
    obtain ⟨hlt, -⟩ := Array.getElem?_eq_some_iff.mp hx
    rw [remove, if_pos hn, node?, Array.getElem?_setIfInBounds]
    by_cases hi : n.index = m.index
    · by_cases hm : m = n
      · subst hm
        simp [hlt]
      · have hg : n.generation ≠ m.generation := by
          intro hg
          apply hm
          cases m
          cases n
          simp_all
        have hnone : a.node? m = none := by simp [node?, ← hi, hx, hg]
        simp [hi, hm, hnone, hi ▸ hlt]
    · have hm : m ≠ n := fun hm => hi (by rw [hm])
      simp [hi, hm, node?]
  · rw [remove, if_neg hn]
    split
    · rename_i hm
      subst hm
      simpa [contains] using hn
    · rfl

theorem modify_eq_self {a : Arena α} {n : NodeId} {f : Node α → Node α}
    (hf : ∀ x, a.node? n = some x → f x = x) : a.modify n f = a := by
  have hslots : (a.modify n f).slots = a.slots := by
    apply Array.ext_getElem?
    intro i
    rw [slots_modify]
    cases hs : a.slots[i]? with
    | none => rfl
    | some s =>
      rw [Option.map_some]
      split
      · rename_i hcond
        obtain ⟨rfl, hg⟩ := hcond
        obtain ⟨generation, node⟩ := s
        cases node with
        | none => rfl
        | some x =>
          obtain rfl : generation = n.generation := hg
          simp [hf x (node?_eq_some.mpr hs)]
      · rfl
  have hrest : (a.modify n f).vacant = a.vacant ∧ (a.modify n f).inserted = a.inserted := by
    unfold modify
    split <;> exact ⟨rfl, rfl⟩
  calc a.modify n f = ⟨(a.modify n f).slots, (a.modify n f).vacant, (a.modify n f).inserted⟩ := rfl
    _ = a := by rw [hslots, hrest.1, hrest.2]

theorem modify_id {a : Arena α} {n : NodeId} {f : Node α → Node α} (hf : ∀ x, f x = x) :
    a.modify n f = a := modify_eq_self fun x _ => hf x

theorem modify_modify (a : Arena α) (n : NodeId) (f g : Node α → Node α) :
    (a.modify n f).modify n g = a.modify n fun x => g (f x) := by
  by_cases hn : a.contains n
  · have hcontains : (a.modify n f).contains n := by
      rw [contains, node?_modify, if_pos rfl, Option.isSome_map]
      exact hn
    have hslots : ((a.slots.modify n.index fun s => { s with node := s.node.map f }).modify n.index
        fun s => { s with node := s.node.map g }) =
        a.slots.modify n.index fun s => { s with node := s.node.map fun x => g (f x) } := by
      apply Array.ext_getElem?
      intro i
      simp only [Array.getElem?_modify]
      split
      · simp [Function.comp_def]
      · rfl
    rw [modify, if_pos hcontains, modify, if_pos hn, modify, if_pos hn]
    simp only [hslots]
  · have hcontains : ¬(a.modify n f).contains n := by
      rw [contains, node?_modify, if_pos rfl, Option.isSome_map]
      exact hn
    rw [modify, if_neg hcontains, modify, if_neg hn, modify, if_neg hn]

theorem foldl_addChild (cs : List NodeId) (a : Arena α) (n : NodeId) :
    cs.foldl (fun a c => a.addChild n c) a = a.modify n fun x => { x with
      children := cs.foldl (fun ks c => if c ∈ ks then ks else ks ++ [c]) x.children } := by
  induction cs generalizing a with
  | nil => exact (modify_id fun _ => rfl).symm
  | cons c cs ih =>
    rw [List.foldl_cons, ih, addChild, modify_modify]
    congr 1
    funext x
    rw [List.foldl_cons]
    split <;> rfl

@[simp] theorem inserted_modify (a : Arena α) (n : NodeId) (f : Node α → Node α) :
    (a.modify n f).inserted = a.inserted := by
  unfold modify
  split <;> rfl

@[simp] theorem inserted_remove (a : Arena α) (n : NodeId) :
    (a.remove n).inserted = a.inserted := by
  unfold remove
  split <;> rfl

@[simp] theorem inserted_insert (a : Arena α) (content : α) :
    (a.insert content).2.inserted = a.inserted + 1 := by
  unfold insert
  split <;> rfl

end Arena

end GradientGraph
