import GradientGraph.Proofs.Node.Change
import GradientGraph.Proofs.Plan.Replay

/-!
# How an arena ages

A slot counts its generation up when it is filled again, a node its version when its
edges are rebuilt. As long as there were too few insertions and assignments for these
to come round, a slot whose generation is the same holds the node that it held or
nothing, and a node whose version is the same has the edges that it had and is
computed if it was. A plan that is fresh and live is therefore the plan that the
arena gives rise to now.
-/

set_option autoImplicit false

namespace GradientGraph

variable {α : Type}

section Later

variable (computed : α → Bool)

def Node.Later (m : Nat) (x y : Node α) : Prop :=
  ∃ j ≤ m, y.version = x.version + UInt64.ofNat j ∧
    (j = 0 → x.children = y.children ∧ computed x.content = computed y.content)

/-- What `k` insertions and `m` assignments can make of a slot. -/
def Slot.Later (k m : Nat) (s t : Slot α) : Prop :=
  ∃ i ≤ k, t.generation = s.generation + UInt32.ofNat i ∧
    (i = 0 → ∀ y, t.node = some y → ∃ x, s.node = some x ∧ x.Later computed m y)

def Arena.Later (k m : Nat) (a b : Arena α) : Prop :=
  ∀ (i : Nat) (s : Slot α), a.slots[i]? = some s →
    ∃ t, b.slots[i]? = some t ∧ s.Later computed k m t

end Later

variable {computed : α → Bool} {k k' m m' : Nat}

theorem Node.Later.refl (m : Nat) (x : Node α) : x.Later computed m x :=
  ⟨0, Nat.zero_le _, (UInt64.add_zero _).symm, fun _ => ⟨rfl, rfl⟩⟩

theorem Node.Later.trans {x y z : Node α} (h : x.Later computed m y)
    (h' : y.Later computed m' z) : x.Later computed (m + m') z := by
  obtain ⟨j, hj, hv, hsame⟩ := h
  obtain ⟨j', hj', hv', hsame'⟩ := h'
  refine ⟨j + j', Nat.add_le_add hj hj', ?_, ?_⟩
  · rw [hv', hv, UInt64.ofNat_add, UInt64.add_assoc]
  · intro hzero
    obtain ⟨hc, hf⟩ := hsame (by omega)
    obtain ⟨hc', hf'⟩ := hsame' (by omega)
    exact ⟨hc.trans hc', hf.trans hf'⟩

theorem Node.Later.mono {x y : Node α} (h : x.Later computed m y) (hm : m ≤ m') :
    x.Later computed m' y := by
  obtain ⟨j, hj, hv, hsame⟩ := h
  exact ⟨j, Nat.le_trans hj hm, hv, hsame⟩

theorem Node.Later.same {x y : Node α} (h : x.Later computed m y) (hm : m < UInt64.size)
    (hv : x.version = y.version) :
    x.children = y.children ∧ computed x.content = computed y.content := by
  obtain ⟨j, hj, hversion, hsame⟩ := h
  apply hsame
  have hnat := congrArg UInt64.toNat (hv.trans hversion)
  rw [UInt64.toNat_add, UInt64.toNat_ofNat'] at hnat
  have hx := x.version.toNat_lt
  rw [UInt64.size] at hm
  omega

theorem Node.Later.between {x y z : Node α} (h : x.Later computed m y)
    (h' : y.Later computed m' z) (hm : m + m' < UInt64.size) (hv : z.version = x.version) :
    y.version = x.version := by
  obtain ⟨j, hj, hversion, -⟩ := h
  obtain ⟨j', hj', hversion', -⟩ := h'
  have hnat := congrArg UInt64.toNat hversion'
  rw [hv, hversion, UInt64.toNat_add, UInt64.toNat_add, UInt64.toNat_ofNat',
    UInt64.toNat_ofNat'] at hnat
  have hx := x.version.toNat_lt
  rw [UInt64.size] at hm
  obtain rfl : j = 0 := by omega
  exact hversion.trans (UInt64.add_zero _)

theorem Slot.Later.refl (k m : Nat) (s : Slot α) : s.Later computed k m s :=
  ⟨0, Nat.zero_le _, (UInt32.add_zero _).symm, fun _ y hy => ⟨y, hy, .refl m y⟩⟩

theorem Slot.Later.trans {s t u : Slot α} (h : s.Later computed k m t)
    (h' : t.Later computed k' m' u) : s.Later computed (k + k') (m + m') u := by
  obtain ⟨i, hi, hg, hnode⟩ := h
  obtain ⟨i', hi', hg', hnode'⟩ := h'
  refine ⟨i + i', Nat.add_le_add hi hi', ?_, ?_⟩
  · rw [hg', hg, UInt32.ofNat_add, UInt32.add_assoc]
  · intro hzero z hz
    obtain ⟨y, hy, hyz⟩ := hnode' (by omega) z hz
    obtain ⟨x, hx, hxy⟩ := hnode (by omega) y hy
    exact ⟨x, hx, hxy.trans hyz⟩

theorem Slot.Later.mono {s t : Slot α} (h : s.Later computed k m t) (hk : k ≤ k')
    (hm : m ≤ m') : s.Later computed k' m' t := by
  obtain ⟨i, hi, hg, hnode⟩ := h
  refine ⟨i, Nat.le_trans hi hk, hg, ?_⟩
  intro hzero y hy
  obtain ⟨x, hx, hxy⟩ := hnode hzero y hy
  exact ⟨x, hx, hxy.mono hm⟩

theorem Slot.Later.same {s t : Slot α} (h : s.Later computed k m t) (hk : k < UInt32.size)
    (hg : s.generation = t.generation) {y : Node α} (hy : t.node = some y) :
    ∃ x, s.node = some x ∧ x.Later computed m y := by
  obtain ⟨i, hi, hgeneration, hnode⟩ := h
  refine hnode ?_ y hy
  have hnat := congrArg UInt32.toNat (hg.trans hgeneration)
  rw [UInt32.toNat_add, UInt32.toNat_ofNat'] at hnat
  have hs := s.generation.toNat_lt
  rw [UInt32.size] at hk
  omega

/-- A generation that is there before and after was there in between. -/
theorem Slot.Later.between {s t u : Slot α} (h : s.Later computed k m t)
    (h' : t.Later computed k' m' u) (hk : k + k' < UInt32.size)
    (hg : u.generation = s.generation) : t.generation = s.generation := by
  obtain ⟨i, hi, hgeneration, -⟩ := h
  obtain ⟨i', hi', hgeneration', -⟩ := h'
  have hnat := congrArg UInt32.toNat hgeneration'
  rw [hg, hgeneration, UInt32.toNat_add, UInt32.toNat_add, UInt32.toNat_ofNat',
    UInt32.toNat_ofNat'] at hnat
  have hs := s.generation.toNat_lt
  rw [UInt32.size] at hk
  -- too few insertions for the generation to come round in both steps together
  obtain rfl : i = 0 := by omega
  exact hgeneration.trans (UInt32.add_zero _)

namespace Arena

variable {a b c : Arena α}

theorem Later.refl (k m : Nat) (a : Arena α) : a.Later computed k m a :=
  fun _ s hs => ⟨s, hs, .refl k m s⟩

theorem Later.trans (h : a.Later computed k m b) (h' : b.Later computed k' m' c) :
    a.Later computed (k + k') (m + m') c := by
  intro i s hs
  obtain ⟨t, ht, hst⟩ := h i s hs
  obtain ⟨u, hu, htu⟩ := h' i t ht
  exact ⟨u, hu, hst.trans htu⟩

theorem Later.between (h : a.Later computed k m b) (h' : b.Later computed k' m' c)
    (hk : k + k' < UInt32.size) (hm : m + m' < UInt64.size) {n : NodeId} {v : UInt64}
    (ha : a.version? n = some v) (hc : c.version? n = some v) : b.version? n = some v := by
  obtain ⟨x, hx, rfl⟩ := Option.map_eq_some_iff.mp ha
  obtain ⟨z, hz, hv⟩ := Option.map_eq_some_iff.mp hc
  obtain ⟨t, ht, hst⟩ := h _ _ (node?_eq_some.mp hx)
  obtain ⟨u, hu, htu⟩ := h' _ _ ht
  obtain rfl : ⟨n.generation, some z⟩ = u :=
    Option.some.inj ((node?_eq_some.mp hz).symm.trans hu)
  have hg : t.generation = n.generation := hst.between htu hk rfl
  obtain ⟨y, hy, hyz⟩ := htu.same (by omega) hg rfl
  obtain ⟨x', hx', hxy⟩ := hst.same (by omega) hg.symm hy
  obtain rfl : x = x' := Option.some.inj hx'
  obtain ⟨generation, node⟩ := t
  obtain rfl : generation = n.generation := hg
  obtain rfl : node = some y := hy
  rw [version?, node?_eq_some.mpr ht, Option.map_some, hxy.between hyz hm hv]

theorem Later.mono (h : a.Later computed k m b) (hk : k ≤ k') (hm : m ≤ m') :
    a.Later computed k' m' b := by
  intro i s hs
  obtain ⟨t, ht, hst⟩ := h i s hs
  exact ⟨t, ht, hst.mono hk hm⟩

theorem later_modify {n : NodeId} {f : Node α → Node α}
    (hf : ∀ x, a.node? n = some x → x.Later computed m (f x)) :
    a.Later computed 0 m (a.modify n f) := by
  intro i s hs
  rw [slots_modify, hs]
  refine ⟨_, rfl, ?_⟩
  show s.Later computed 0 m
    (if n.index = i ∧ s.generation = n.generation then { s with node := s.node.map f } else s)
  split
  · rename_i hcond
    obtain ⟨rfl, hg⟩ := hcond
    refine ⟨0, Nat.le_refl _, (UInt32.add_zero _).symm, ?_⟩
    intro _ y hy
    obtain ⟨x, hx, rfl⟩ := Option.map_eq_some_iff.mp hy
    refine ⟨x, hx, hf x ?_⟩
    rw [node?_eq_some, hs, ← hg, ← hx]
  · exact .refl 0 m s

theorem later_insert (a : Arena α) (content : α) (f : Node α → Node α) :
    a.Later computed 1 m ((a.insert content).2.modify (a.insert content).1 f) := by
  intro i s hs
  obtain ⟨hi, -⟩ := Array.getElem?_eq_some_iff.mp hs
  rw [slots_modify]
  unfold insert
  split
  · refine ⟨s, ?_, .refl 1 m s⟩
    rw [Array.getElem?_push, if_neg (by omega), hs, Option.map_some, if_neg]
    rintro ⟨hsize, -⟩
    simp only at hsize
    omega
  · rename_i v rest hvacant
    by_cases hv : v = i
    · -- the slot is filled again
      subst hv
      have hg : (a.slots[v]?.map (·.generation + 1)).getD 0 = s.generation + 1 := by
        rw [hs]
        rfl
      refine ⟨_, by rw [Array.getElem?_setIfInBounds_self_of_lt hi, Option.map_some], 1,
        Nat.le_refl _, ?_, fun hzero => absurd hzero Nat.one_ne_zero⟩
      split <;> exact hg
    · refine ⟨s, ?_, .refl 1 m s⟩
      rw [Array.getElem?_setIfInBounds_ne hv, hs, Option.map_some, if_neg]
      rintro ⟨hindex, -⟩
      exact hv hindex

theorem later_remove (a : Arena α) (n : NodeId) : a.Later computed k m (a.remove n) := by
  intro i s hs
  unfold remove
  split
  · rename_i hn
    by_cases hi : n.index = i
    · subst hi
      obtain ⟨x, hx⟩ := contains_iff.mp hn
      rw [node?_eq_some] at hx
      obtain ⟨hlt, -⟩ := Array.getElem?_eq_some_iff.mp hs
      obtain rfl := Option.some.inj (hx.symm.trans hs)
      refine ⟨_, Array.getElem?_setIfInBounds_self_of_lt hlt, 0, Nat.zero_le _,
        (UInt32.add_zero _).symm, ?_⟩
      intro _ y hy
      cases hy
    · exact ⟨s, by rw [Array.getElem?_setIfInBounds_ne hi, hs], .refl k m s⟩
  · exact ⟨s, hs, .refl k m s⟩

end Arena

namespace Plan

variable {a b : Arena α} {targets bounds : NodeSet} {p : Plan}

theorem alike_of_fresh (hp : p.Describes a computed targets bounds)
    (hab : a.Later computed k m b) (hk : k < UInt32.size) (hm : m < UInt64.size)
    (hfresh : p.isFresh b = true) {n : NodeId} (hn : n ∈ p.order) (hlive : b.contains n) :
    Alike a b computed bounds n := by
  rw [isFresh, List.all_eq_true] at hfresh
  obtain ⟨x, hx⟩ := Arena.contains_iff.mp (hp.live n hn)
  obtain ⟨y, hy⟩ := Arena.contains_iff.mp hlive
  refine ⟨x, y, hx, hy, ?_⟩
  by_cases hb : n ∈ bounds
  · exact .inl hb
  · -- the version was recorded, and is still the current one
    obtain ⟨v, hv⟩ := hp.recorded n hn hb
    have hxv : x.version = v := by simpa [Arena.version?, hx] using hp.versions _ hv
    have hyv : y.version = v := by simpa [Arena.version?, hy] using hfresh _ hv
    have hversion : x.version = y.version := hxv.trans hyv.symm
    obtain ⟨t, ht, hlater⟩ := hab _ _ (Arena.node?_eq_some.mp hx)
    obtain rfl : ⟨n.generation, some y⟩ = t :=
      Option.some.inj ((Arena.node?_eq_some.mp hy).symm.trans ht)
    obtain ⟨x', hx', hxy⟩ := hlater.same hk rfl rfl
    obtain rfl : x = x' := Option.some.inj hx'
    exact .inr ⟨hversion, hxy.same hm hversion⟩

/-- A plan made before, if it is fresh and live, is the one that is made now. -/
theorem build_of_fresh (h : build a computed targets bounds = .ok p)
    (hab : a.Later computed k m b) (hk : k < UInt32.size) (hm : m < UInt64.size)
    (hfresh : p.isFresh b = true) (hlive : p.isLive b = true) :
    build b computed targets bounds = .ok p := by
  rw [isLive, List.all_eq_true] at hlive
  exact build_alike h fun n hn =>
    alike_of_fresh (build_describes h) hab hk hm hfresh hn (hlive n hn)

end Plan

end GradientGraph
