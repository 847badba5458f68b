import Mathlib.Data.List.DropRight
import Mathlib.Data.List.Nodup
import Mathlib.Data.Set.Card
import GradientGraph.Error
import GradientGraph.Proofs.Node.Vacant

/-!
# The record of an arena

What an arena holds is told by the record of all that was done with it. An identity is issued
once, and stands for its node from then on until the node is removed; the edges of a node are
those added since they were last dropped, and its version counts how often that was. What is asked
for under any other identity changes nothing, whoever lives in that slot now.
-/

set_option autoImplicit false

namespace GradientGraph

variable {α : Type}

namespace Arena

/-- What can be done with an arena. The identities can be any. -/
inductive Act (α : Type) where
  | insert (content : α)
  | remove (n : NodeId)
  | addChild (n child : NodeId)
  | resetChildren (n : NodeId)

inductive Event where
  | inserted (n : NodeId)
  | removed (n : NodeId)
  | linked (n child : NodeId)
  | reset (n : NodeId)
deriving DecidableEq, Repr

def reply (a : Arena α) (n : NodeId) : Except Error (Option NodeId) :=
  if a.contains n then .ok none else .error .nodeNotIndexed

namespace Act

def isInsert : Act α → Bool
  | .insert _ => true
  | _ => false

def perform (x : Act α) (a : Arena α) : Except Error (Option NodeId) × Arena α :=
  match x with
  | .insert content => (.ok (some (a.insert content).1), (a.insert content).2)
  | .remove n => (.ok none, a.remove n)
  | .addChild n child => (a.reply n, a.addChild n child)
  | .resetChildren n => (a.reply n, a.resetChildren n)

def event (x : Act α) (a : Arena α) : Event :=
  match x with
  | .insert content => .inserted (a.insert content).1
  | .remove n => .removed n
  | .addChild n child => .linked n child
  | .resetChildren n => .reset n

end Act

def record (acts : List (Act α)) : List Event × Arena α :=
  acts.foldl (fun (es, a) x => (es ++ [x.event a], (x.perform a).2)) ([], {})

theorem record_concat (acts : List (Act α)) (x : Act α) :
    record (acts ++ [x]) = ((record acts).1 ++ [x.event (record acts).2],
      (x.perform (record acts).2).2) := by
  rw [record, List.foldl_append]
  rfl

section History

def Event.issued? : Event → Option NodeId
  | .inserted n => some n
  | _ => none

def Event.child? (n : NodeId) : Event → Option NodeId
  | .linked m child => if m = n then some child else none
  | _ => none

def issued (es : List Event) : List NodeId := es.filterMap Event.issued?

/-- Whether the node was made, and not removed in all that was done since. -/
def Since (es : List Event) (n : NodeId) (later : List Event) : Prop :=
  (∃ earlier, es = earlier ++ .inserted n :: later) ∧ .removed n ∉ later

/-- The edges added since they were last dropped, in the order in which they first were. -/
def childrenSince (n : NodeId) (later : List Event) : List NodeId :=
  ((later.rtakeWhile (· ≠ .reset n)).filterMap (Event.child? n)).eraseDups

/-- How often the edges were dropped. -/
def resetsSince (n : NodeId) (later : List Event) : Nat := later.count (.reset n)

variable {es : List Event} {n m : NodeId} {later : List Event}

theorem issued_concat (es : List Event) (e : Event) :
    issued (es ++ [e]) = issued es ++ e.issued?.toList := by
  rw [issued, List.filterMap_append]
  cases h : e.issued? <;> simp [issued, h]

theorem Since.issued (h : Since es n later) : n ∈ issued es := by
  obtain ⟨⟨earlier, rfl⟩, -⟩ := h
  exact List.mem_filterMap.mpr ⟨.inserted n, by simp, rfl⟩

theorem since_concat {e : Event} : Since (es ++ [e]) n later ↔
    (e = .inserted n ∧ later = []) ∨
      ∃ before, later = before ++ [e] ∧ Since es n before ∧ e ≠ .removed n := by
  constructor
  · rintro ⟨⟨earlier, h⟩, hkept⟩
    obtain rfl | ⟨before, d, rfl⟩ := List.eq_nil_or_concat later
    · exact .inl ⟨by simpa using (List.append_inj' h rfl).2, rfl⟩
    · rw [List.concat_eq_append] at h hkept
      have h := h.trans (List.append_assoc earlier (_ :: before) _).symm
      obtain ⟨hes, hd⟩ := List.append_inj' h rfl
      obtain rfl : e = d := by simpa using hd
      refine .inr ⟨before, List.concat_eq_append, ⟨⟨earlier, hes⟩, ?_⟩, ?_⟩
      · exact fun hmem => hkept (List.mem_append_left _ hmem)
      · exact fun he => hkept (by simp [he])
  · rintro (⟨rfl, rfl⟩ | ⟨before, rfl, ⟨⟨earlier, rfl⟩, hkept⟩, he⟩)
    · exact ⟨⟨es, rfl⟩, List.not_mem_nil⟩
    · exact ⟨⟨earlier, by simp⟩, by simp [hkept, Ne.symm he]⟩

theorem eraseDups_concat (cs : List NodeId) (c : NodeId) : (cs ++ [c]).eraseDups =
    if c ∈ cs then cs.eraseDups else cs.eraseDups ++ [c] := by
  rw [List.eraseDups_append]
  by_cases hc : c ∈ cs <;> simp [List.removeAll, hc, List.eraseDups_cons]

theorem nodup_eraseDups (cs : List NodeId) : cs.eraseDups.Nodup := by
  induction cs using List.reverseRecOn with
  | nil => simp
  | append_singleton cs c ih =>
    rw [eraseDups_concat]
    split
    · exact ih
    · rename_i hc
      simpa using ih.concat (mt List.mem_eraseDups.mp hc)

theorem childrenSince_linked (later : List Event) (n c : NodeId) :
    childrenSince n (later ++ [.linked n c]) = if c ∈ childrenSince n later
      then childrenSince n later else childrenSince n later ++ [c] := by
  have hc : Event.child? n (.linked n c) = some c := if_pos rfl
  rw [childrenSince, List.rtakeWhile_concat_pos _ _ _ (by simp), List.filterMap_append,
    List.filterMap_cons_some hc, List.filterMap_nil, eraseDups_concat]
  simp only [childrenSince, List.mem_eraseDups]

theorem childrenSince_reset (later : List Event) (n : NodeId) :
    childrenSince n (later ++ [.reset n]) = [] := by
  rw [childrenSince, List.rtakeWhile_concat_neg _ _ _ (by simp)]
  rfl

def Event.Spares (n : NodeId) (e : Event) : Prop := e ≠ .reset n ∧ e.child? n = none

theorem Event.Spares.children {e : Event} (h : e.Spares n) (later : List Event) :
    childrenSince n (later ++ [e]) = childrenSince n later := by
  rw [childrenSince, List.rtakeWhile_concat_pos _ _ _ (by simpa using h.1), List.filterMap_append,
    List.filterMap_cons_none h.2, List.filterMap_nil, List.append_nil, childrenSince]

theorem Event.Spares.resets {e : Event} (h : e.Spares n) (later : List Event) :
    resetsSince n (later ++ [e]) = resetsSince n later := by
  rw [resetsSince, List.count_append, List.count_singleton, if_neg (by simpa using h.1),
    Nat.add_zero, resetsSince]

end History

section Slots

variable {a : Arena α}

theorem Packed.insert_place (h : a.Packed) (content : α) :
    (a.slots[(a.insert content).1.index]? = none ∧ (a.insert content).1.generation = 0) ∨
      ∃ g, a.slots[(a.insert content).1.index]? = some ⟨g, none⟩ ∧
        (a.insert content).1.generation = g + 1 := by
  unfold Arena.insert
  split
  · exact .inl ⟨by simp, rfl⟩
  · rename_i i rest hvacant
    obtain ⟨g, hs⟩ := h.empty i (hvacant ▸ List.mem_cons_self)
    exact .inr ⟨g, hs, by simp [hs]⟩

theorem Packed.slots_insert (h : a.Packed) (content : α) (i : Nat) :
    (a.insert content).2.slots[i]? =
      if i = (a.insert content).1.index then
        some ⟨(a.insert content).1.generation, some { content }⟩
      else a.slots[i]? := by
  unfold Arena.insert
  split
  · exact Array.getElem?_push
  · rename_i j rest hvacant
    obtain ⟨g, hs⟩ := h.empty j (hvacant ▸ List.mem_cons_self)
    obtain ⟨hlt, -⟩ := Array.getElem?_eq_some_iff.mp hs
    rw [Array.getElem?_setIfInBounds]
    by_cases hi : i = j
    · subst hi
      simp [hlt]
    · simp [hi, Ne.symm hi]

theorem Packed.mem_vacant_insert (h : a.Packed) (content : α) (i : Nat) :
    i ∈ (a.insert content).2.vacant ↔ i ∈ a.vacant ∧ i ≠ (a.insert content).1.index := by
  unfold Arena.insert
  split
  · rename_i hvacant
    simp [hvacant]
  · rename_i j rest hvacant
    have hnodup := h.nodup
    rw [hvacant, List.nodup_cons] at hnodup
    rw [hvacant, List.mem_cons]
    constructor
    · intro hi
      refine ⟨.inr hi, ?_⟩
      rintro (rfl : i = j)
      exact hnodup.1 hi
    · rintro ⟨rfl | hi, hne⟩
      · exact absurd rfl hne
      · exact hi

theorem vacant_modify (a : Arena α) (n : NodeId) (f : Node α → Node α) :
    (a.modify n f).vacant = a.vacant := by
  unfold modify
  split <;> rfl

theorem slots_of_modify {n : NodeId} {f : Node α → Node α} {i : Nat} {s : Slot α}
    (h : (a.modify n f).slots[i]? = some s) :
    ∃ t, a.slots[i]? = some t ∧ t.generation = s.generation ∧ (s.node = none → t.node = none) := by
  rw [slots_modify] at h
  obtain ⟨t, ht, rfl⟩ := Option.map_eq_some_iff.mp h
  refine ⟨t, ht, ?_, ?_⟩
  · split <;> rfl
  · split
    · exact fun hnone => Option.map_eq_none_iff.mp hnone
    · exact id

theorem slots_modify_some {n : NodeId} {f : Node α → Node α} {i : Nat} {t : Slot α}
    (h : a.slots[i]? = some t) :
    ∃ s, (a.modify n f).slots[i]? = some s ∧ s.generation = t.generation := by
  rw [slots_modify, h, Option.map_some]
  refine ⟨_, rfl, ?_⟩
  split <;> rfl

theorem slots_remove (a : Arena α) (n : NodeId) (i : Nat) :
    (a.remove n).slots[i]? = if a.contains n ∧ i = n.index then some ⟨n.generation, none⟩
      else a.slots[i]? := by
  by_cases hn : a.contains n
  · obtain ⟨x, hx⟩ := contains_iff.mp hn
    obtain ⟨hlt, -⟩ := Array.getElem?_eq_some_iff.mp (node?_eq_some.mp hx)
    rw [remove, if_pos hn, Array.getElem?_setIfInBounds]
    by_cases hi : i = n.index
    · subst hi
      simp [hn, hlt]
    · simp [hi, Ne.symm hi]
  · simp [remove, hn]

theorem nodup_ids (a : Arena α) : a.ids.Nodup := by
  have hplaces : a.slots.toList.zipIdx.Pairwise fun s t => s.2 ≠ t.2 := by
    rw [← List.pairwise_map (f := Prod.snd) (R := fun i j : Nat => i ≠ j), List.zipIdx_map_snd]
    exact List.nodup_range' _
  refine List.Pairwise.filterMap _ ?_ hplaces
  rintro ⟨s, i⟩ ⟨t, j⟩ hne n hn m hm rfl
  obtain ⟨x, -, rfl⟩ := Option.map_eq_some_iff.mp hn
  obtain ⟨y, -, hm⟩ := Option.map_eq_some_iff.mp hm
  exact hne (congrArg NodeId.index hm).symm

theorem length_ids (a : Arena α) : a.ids.length = a.size := by
  have hnodes : a.slots.toList.zipIdx.countP (·.1.node.isSome) =
      a.slots.toList.countP (·.node.isSome) := by
    conv_rhs => rw [← List.zipIdx_map_fst 0 a.slots.toList, List.countP_map]
    rfl
  rw [ids, List.length_filterMap_eq_countP, size, ← Array.countP_toList, ← hnodes]
  congr 1
  funext s
  exact Option.isSome_map

theorem encard_contains (a : Arena α) : {n | a.contains n}.encard = a.size := by
  have hset : {n | a.contains n} = (a.ids.toFinset : Set NodeId) := by
    ext n
    simp [mem_ids]
  rw [hset, Set.encard_coe_eq_coe_finsetCard, List.toFinset_card_of_nodup a.nodup_ids, length_ids]

end Slots

section Invariant

/-- Whether the node has the edges and the version that the record since it was made tells of. -/
def Tells (later : List Event) (n : NodeId) (x : Node α) : Prop :=
  x.children = childrenSince n later ∧ x.version = UInt64.ofNat (resetsSince n later)

/-- What the record and the arena have to do with each other. The generation of a slot is bounded
by the number of insertions and has not come round, so that an identity that was issued stays
apart from all later ones of its slot. -/
structure Recorded (es : List Event) (a : Arena α) : Prop where
  packed : a.Packed
  listed : ∀ (i : Nat) (s : Slot α), a.slots[i]? = some s → s.node = none → i ∈ a.vacant
  young : ∀ (i : Nat) (s : Slot α), a.slots[i]? = some s →
    s.generation.toNat < (issued es).length
  passed : ∀ n ∈ issued es, ∃ s, a.slots[n.index]? = some s ∧ n.generation ≤ s.generation
  distinct : (issued es).Nodup
  live : ∀ n x, a.node? n = some x → ∃ later, Since es n later
  kept : ∀ n later, Since es n later → ∃ x, a.node? n = some x ∧ Tells later n x

variable {es : List Event} {a : Arena α}

theorem recorded_empty : Recorded [] ({} : Arena α) where
  packed := packed_empty
  listed := by simp
  young := by simp
  passed := by simp [issued]
  distinct := List.nodup_nil
  live := by simp [node?]
  kept := by
    rintro n later ⟨⟨earlier, h⟩, -⟩
    simp at h

theorem Tells.spared {later : List Event} {n : NodeId} {x : Node α} (h : Tells later n x)
    {e : Event} (he : e.Spares n) : Tells (later ++ [e]) n x :=
  ⟨h.1.trans (he.children later).symm, h.2.trans (congrArg _ (he.resets later).symm)⟩

theorem Recorded.issued_lt (h : Recorded es a) (hfew : (issued es).length < UInt32.size)
    (content : α) {n : NodeId} (hn : n ∈ issued es) (hi : n.index = (a.insert content).1.index) :
    n.generation < (a.insert content).1.generation := by
  obtain ⟨s, hs, hle⟩ := h.passed n hn
  obtain ⟨hnone, -⟩ | ⟨g, hg, hnext⟩ := h.packed.insert_place content
  · rw [hi, hnone] at hs
    cases hs
  · obtain rfl := Option.some.inj (hg.symm.trans (hi ▸ hs))
    have hyoung := h.young _ _ hg
    rw [UInt32.le_iff_toNat_le] at hle
    rw [hnext, UInt32.lt_iff_toNat_lt, UInt32.toNat_add]
    rw [UInt32.size] at hfew
    simp only [UInt32.toNat_one] at hyoung hle ⊢
    omega

/-- The identity of a new node was never issued before. -/
theorem Recorded.fresh (h : Recorded es a) (hfew : (issued es).length < UInt32.size)
    (content : α) : (a.insert content).1 ∉ issued es :=
  fun hn => UInt32.lt_irrefl _ (h.issued_lt hfew content hn rfl)

theorem Recorded.generation_le (h : Recorded es a) (content : α) :
    (a.insert content).1.generation.toNat ≤ (issued es).length := by
  obtain ⟨-, hzero⟩ | ⟨g, hg, hnext⟩ := h.packed.insert_place content
  · simp [hzero]
  · have hyoung := h.young _ _ hg
    rw [hnext, UInt32.toNat_add]
    simp only [UInt32.toNat_one] at hyoung ⊢
    omega

theorem Recorded.insert (h : Recorded es a) (hfew : (issued es).length < UInt32.size)
    (content : α) :
    Recorded (es ++ [.inserted (a.insert content).1]) (a.insert content).2 := by
  have hfresh := h.fresh hfew content
  have hyoung := h.generation_le content
  have hslots := h.packed.slots_insert content
  have hnode := h.packed.node?_insert content
  have hvacant := h.packed.mem_vacant_insert content
  have hlt := fun n => h.issued_lt hfew content (n := n)
  -- all that matters of the new identity is known by now
  generalize (a.insert content).1 = id at hfresh hyoung hslots hnode hvacant hlt ⊢
  have hissued : issued (es ++ [.inserted id]) = issued es ++ [id] := issued_concat es _
  constructor
  case packed => exact h.packed.insert content
  case listed =>
    intro i s hs hempty
    rw [hslots] at hs
    split at hs
    · rw [← Option.some.inj hs] at hempty
      cases hempty
    · rename_i hi
      exact (hvacant i).mpr ⟨h.listed i s hs hempty, hi⟩
  case young =>
    intro i s hs
    rw [hissued, List.length_append, List.length_singleton]
    rw [hslots] at hs
    split at hs
    · rw [← Option.some.inj hs]
      exact Nat.lt_succ_of_le hyoung
    · exact Nat.lt_succ_of_lt (h.young i s hs)
  case passed =>
    intro n hn
    rw [hslots]
    obtain hn | rfl := (List.mem_append.mp (hissued ▸ hn)).imp_right List.mem_singleton.mp
    · by_cases hi : n.index = id.index
      · exact ⟨_, if_pos hi, UInt32.le_of_lt (hlt n hn hi)⟩
      · rw [if_neg hi]
        exact h.passed n hn
    · exact ⟨_, if_pos rfl, UInt32.le_refl _⟩
  case distinct => rw [hissued]; simpa using h.distinct.concat hfresh
  case live =>
    intro n x hx
    rw [hnode] at hx
    split at hx
    · rename_i hn
      exact ⟨[], since_concat.mpr (.inl ⟨congrArg _ hn.symm, rfl⟩)⟩
    · obtain ⟨later, hlater⟩ := h.live n x hx
      exact ⟨_, since_concat.mpr (.inr ⟨later, rfl, hlater, Event.noConfusion⟩)⟩
  case kept =>
    intro n later hlater
    rw [hnode]
    obtain ⟨he, rfl⟩ | ⟨before, rfl, hbefore, -⟩ := since_concat.mp hlater
    · refine ⟨{ content }, if_pos (Event.inserted.inj he).symm, rfl, rfl⟩
    · obtain ⟨x, hx, htells⟩ := h.kept n before hbefore
      have hne : n ≠ id := fun hn => hfresh (hn ▸ hbefore.issued)
      exact ⟨x, (if_neg hne).trans hx, htells.spared ⟨Event.noConfusion, rfl⟩⟩

theorem Recorded.remove (h : Recorded es a) (n : NodeId) :
    Recorded (es ++ [.removed n]) (a.remove n) := by
  have hissued : issued (es ++ [.removed n]) = issued es :=
    (issued_concat es _).trans (List.append_nil _)
  have hslot : ∀ (i : Nat) (s : Slot α), (a.remove n).slots[i]? = some s →
      ∃ t, a.slots[i]? = some t ∧ t.generation = s.generation := by
    intro i s hs
    rw [slots_remove] at hs
    split at hs
    · rename_i hn
      obtain ⟨x, hx⟩ := contains_iff.mp hn.1
      rw [hn.2]
      exact ⟨_, node?_eq_some.mp hx, by rw [← Option.some.inj hs]⟩
    · exact ⟨s, hs, rfl⟩
  constructor
  case packed => exact h.packed.remove n
  case listed =>
    intro i s hs hempty
    rw [slots_remove] at hs
    by_cases hn : a.contains n
    · rw [Arena.remove, if_pos hn]
      by_cases hi : i = n.index
      · exact hi ▸ List.mem_cons_self
      · rw [if_neg (fun hboth => hi hboth.2)] at hs
        exact List.mem_cons_of_mem _ (h.listed i s hs hempty)
    · rw [if_neg (fun hboth => hn hboth.1)] at hs
      rw [Arena.remove, if_neg hn]
      exact h.listed i s hs hempty
  case young =>
    intro i s hs
    obtain ⟨t, ht, hgeneration⟩ := hslot i s hs
    rw [hissued, ← hgeneration]
    exact h.young i t ht
  case passed =>
    intro m hm
    obtain ⟨s, hs, hle⟩ := h.passed m (hissued ▸ hm)
    rw [slots_remove]
    split
    · rename_i hn
      obtain ⟨x, hx⟩ := contains_iff.mp hn.1
      rw [hn.2, node?_eq_some.mp hx] at hs
      rw [← Option.some.inj hs] at hle
      exact ⟨_, rfl, hle⟩
    · exact ⟨s, hs, hle⟩
  case distinct => exact hissued ▸ h.distinct
  case live =>
    intro m x hx
    rw [node?_remove] at hx
    split at hx
    · cases hx
    · rename_i hm
      obtain ⟨later, hlater⟩ := h.live m x hx
      exact ⟨_, since_concat.mpr
        (.inr ⟨later, rfl, hlater, fun he => hm (Event.removed.inj he).symm⟩)⟩
  case kept =>
    intro m later hlater
    obtain ⟨he, -⟩ | ⟨before, rfl, hbefore, he⟩ := since_concat.mp hlater
    · cases he
    · obtain ⟨x, hx, htells⟩ := h.kept m before hbefore
      -- it was not removed since it was made, so it is another one
      have hne : m ≠ n := fun hm => he (congrArg _ hm.symm)
      rw [node?_remove, if_neg hne]
      exact ⟨x, hx, htells.spared ⟨Event.noConfusion, rfl⟩⟩

theorem Recorded.modify (h : Recorded es a) {n : NodeId} {f : Node α → Node α} {e : Event}
    (hissued : e.issued? = none) (hremoved : ∀ m, e ≠ .removed m)
    (hothers : ∀ m, m ≠ n → e.Spares m)
    (hnode : ∀ (later : List Event) (x : Node α), Tells later n x → Tells (later ++ [e]) n (f x)) :
    Recorded (es ++ [e]) (a.modify n f) := by
  have hissued : issued (es ++ [e]) = issued es := by simp [issued_concat, hissued]
  have hmade : ∀ m, e ≠ .inserted m := by
    rintro m rfl
    exact absurd (issued_concat es (.inserted m) ▸ hissued) (by simp [Event.issued?])
  constructor
  case packed => exact h.packed.modify n f
  case listed =>
    intro i s hs hempty
    obtain ⟨t, ht, -, hvacant⟩ := slots_of_modify hs
    rw [vacant_modify]
    exact h.listed i t ht (hvacant hempty)
  case young =>
    intro i s hs
    obtain ⟨t, ht, hgeneration, -⟩ := slots_of_modify hs
    rw [hissued, ← hgeneration]
    exact h.young i t ht
  case passed =>
    intro m hm
    obtain ⟨t, ht, hle⟩ := h.passed m (hissued ▸ hm)
    obtain ⟨s, hs, hgeneration⟩ := slots_modify_some (n := n) (f := f) ht
    exact ⟨s, hs, hgeneration ▸ hle⟩
  case distinct => exact hissued ▸ h.distinct
  case live =>
    intro m x hx
    have hbefore : ∃ y, a.node? m = some y := by
      rw [node?_modify] at hx
      split at hx
      · obtain ⟨y, hy, -⟩ := Option.map_eq_some_iff.mp hx
        exact ⟨y, hy⟩
      · exact ⟨x, hx⟩
    obtain ⟨y, hy⟩ := hbefore
    obtain ⟨later, hlater⟩ := h.live m y hy
    exact ⟨_, since_concat.mpr (.inr ⟨later, rfl, hlater, hremoved m⟩)⟩
  case kept =>
    intro m later hlater
    obtain ⟨he, -⟩ | ⟨before, rfl, hbefore, -⟩ := since_concat.mp hlater
    · exact absurd he (hmade m)
    · obtain ⟨x, hx, htells⟩ := h.kept m before hbefore
      rw [node?_modify, hx]
      by_cases hm : m = n
      · subst hm
        exact ⟨f x, by rw [if_pos rfl, Option.map_some], hnode before x htells⟩
      · exact ⟨x, if_neg hm, htells.spared (hothers m hm)⟩

theorem Recorded.addChild (h : Recorded es a) (n child : NodeId) :
    Recorded (es ++ [.linked n child]) (a.addChild n child) := by
  refine h.modify rfl (fun m => Event.noConfusion) (fun m hm => ?_) ?_
  · exact ⟨Event.noConfusion, if_neg (Ne.symm hm)⟩
  · intro later x ⟨hchildren, hversion⟩
    have hsame : resetsSince n (later ++ [.linked n child]) = resetsSince n later := by
      simp [resetsSince]
    rw [Tells, hsame, childrenSince_linked, ← hchildren]
    split
    · exact ⟨rfl, hversion⟩
    · exact ⟨rfl, hversion⟩

theorem Recorded.resetChildren (h : Recorded es a) (n : NodeId) :
    Recorded (es ++ [.reset n]) (a.resetChildren n) := by
  refine h.modify rfl (fun m => Event.noConfusion) (fun m hm => ?_) ?_
  · exact ⟨fun he => hm (Event.reset.inj he).symm, rfl⟩
  · intro later x ⟨hchildren, hversion⟩
    refine ⟨(childrenSince_reset later n).symm, ?_⟩
    have hmore : resetsSince n (later ++ [.reset n]) = resetsSince n later + 1 := by
      simp [resetsSince]
    rw [hmore, UInt64.ofNat_add, ← hversion]
    rfl

theorem Recorded.perform (h : Recorded es a) (x : Act α)
    (hfew : (issued (es ++ [x.event a])).length ≤ UInt32.size) :
    Recorded (es ++ [x.event a]) (x.perform a).2 := by
  cases x with
  | insert content =>
    refine h.insert ?_ content
    rw [issued_concat] at hfew
    simpa [Act.event, Event.issued?, Nat.succ_le_iff] using hfew
  | remove n => exact h.remove n
  | addChild n child => exact h.addChild n child
  | resetChildren n => exact h.resetChildren n

theorem length_issued (acts : List (Act α)) :
    (issued (record acts).1).length = acts.countP Act.isInsert := by
  induction acts using List.reverseRecOn with
  | nil => rfl
  | append_singleton acts x ih =>
    rw [record_concat, issued_concat, List.length_append, ih, List.countP_append]
    cases x <;> rfl

theorem recorded_record (acts : List (Act α)) (hfew : acts.countP Act.isInsert ≤ UInt32.size) :
    Recorded (record acts).1 (record acts).2 := by
  induction acts using List.reverseRecOn with
  | nil => exact recorded_empty
  | append_singleton acts x ih =>
    have hbefore : acts.countP Act.isInsert ≤ UInt32.size :=
      ((List.sublist_append_left acts [x]).countP_le).trans hfew
    rw [← length_issued, record_concat] at hfew
    rw [record_concat]
    exact (ih hbefore).perform x hfew

theorem Recorded.contains_iff (h : Recorded es a) (n : NodeId) :
    a.contains n = true ↔ ∃ later, Since es n later := by
  rw [Arena.contains_iff]
  constructor
  · rintro ⟨x, hx⟩
    exact h.live n x hx
  · rintro ⟨later, hlater⟩
    obtain ⟨x, hx, -⟩ := h.kept n later hlater
    exact ⟨x, hx⟩

theorem Recorded.mem_vacant (h : Recorded es a) (i : Nat) :
    i ∈ a.vacant ↔ ∃ g, a.slots[i]? = some ⟨g, none⟩ := by
  constructor
  · exact h.packed.empty i
  · rintro ⟨g, hs⟩
    exact h.listed i _ hs rfl

theorem refused_dead {n : NodeId} (hn : ¬a.contains n) (f : Node α → Node α) :
    (a.reply n, a.modify n f) = (.error .nodeNotIndexed, a) :=
  Prod.ext (if_neg hn) (if_neg hn)

end Invariant

/-- Whatever is done with an arena, under whatever identities, as long as the generations do not
come round: every identity is issued once, and is live if its node was made and not removed since;
the vacant slots are listed once each; the size counts the live nodes; an act under any other
identity is refused or does nothing, and leaves everything as it is; and the edges and the version
of a live node are those that the record tells of, the version as a number of 64 bits. -/
theorem nodes_apart (acts : List (Act α)) (hfew : acts.countP Act.isInsert < UInt32.size) :
    let es := (record acts).1
    let a := (record acts).2
    (issued es).Nodup ∧
    (∀ n, a.contains n = true ↔ ∃ later, Since es n later) ∧
    (∀ i, i ∈ a.vacant ↔ ∃ g, a.slots[i]? = some ⟨g, none⟩) ∧
    a.vacant.Nodup ∧
    {n | a.contains n = true}.encard = a.size ∧
    (∀ n, a.contains n = false →
      a.children? n = none ∧ a.version? n = none ∧
      (Act.remove n).perform a = (.ok none, a) ∧
      (∀ child, (Act.addChild n child).perform a = (.error .nodeNotIndexed, a)) ∧
      (Act.resetChildren n).perform a = (.error .nodeNotIndexed, a)) ∧
    ∀ n later, Since es n later →
      a.children? n = some (childrenSince n later) ∧ (childrenSince n later).Nodup ∧
      a.version? n = some (UInt64.ofNat (resetsSince n later)) := by
  intro es a
  have h : Recorded es a := recorded_record acts hfew.le
  refine ⟨h.distinct, h.contains_iff, h.mem_vacant, h.packed.nodup, a.encard_contains, ?_, ?_⟩
  · intro n hn
    have hnone : a.node? n = none := by simpa [contains] using hn
    have hdead : ¬a.contains n := by simp [hn]
    refine ⟨by rw [children?, hnone]; rfl, by rw [version?, hnone]; rfl, ?_, fun child => ?_, ?_⟩
    · exact Prod.ext rfl (if_neg hdead)
    · exact refused_dead hdead _
    · exact refused_dead hdead _
  · intro n later hlater
    obtain ⟨x, hx, hchildren, hversion⟩ := h.kept n later hlater
    refine ⟨?_, nodup_eraseDups _, ?_⟩
    · rw [children?, hx, Option.map_some, hchildren]
    · rw [version?, hx, Option.map_some, hversion]

/-- A slot that is filled again, with a node removed twice and then asked for edges, and with
edges to a node that was never made. -/
theorem nodes_apart_refilled :
    let acts : List (Act Unit) := [.insert (), .insert (), .addChild ⟨0, 0⟩ ⟨1, 0⟩, .remove ⟨0, 0⟩,
      .remove ⟨0, 0⟩, .insert (), .addChild ⟨0, 0⟩ ⟨1, 0⟩, .addChild ⟨0, 1⟩ ⟨1, 0⟩,
      .resetChildren ⟨0, 1⟩, .addChild ⟨0, 1⟩ ⟨7, 3⟩, .addChild ⟨0, 1⟩ ⟨1, 0⟩,
      .addChild ⟨0, 1⟩ ⟨7, 3⟩]
    let a := (record acts).2
    acts.countP Act.isInsert < UInt32.size ∧
    issued (record acts).1 = [⟨0, 0⟩, ⟨1, 0⟩, ⟨0, 1⟩] ∧ a.vacant = [] ∧
    a.contains ⟨0, 0⟩ = false ∧
    (Act.addChild ⟨0, 0⟩ ⟨1, 0⟩).perform a = (.error .nodeNotIndexed, a) ∧
    a.children? ⟨0, 1⟩ = some [⟨7, 3⟩, ⟨1, 0⟩] ∧ a.version? ⟨0, 1⟩ = some 1 := by
  intro acts a
  have hfew : acts.countP Act.isInsert < UInt32.size := by decide
  obtain ⟨-, -, -, -, -, hdead, hlive⟩ := nodes_apart acts hfew
  have hgone : a.contains ⟨0, 0⟩ = false := by decide
  have hsince : Since (record acts).1 ⟨0, 1⟩ [.linked ⟨0, 0⟩ ⟨1, 0⟩, .linked ⟨0, 1⟩ ⟨1, 0⟩,
      .reset ⟨0, 1⟩, .linked ⟨0, 1⟩ ⟨7, 3⟩, .linked ⟨0, 1⟩ ⟨1, 0⟩, .linked ⟨0, 1⟩ ⟨7, 3⟩] :=
    ⟨⟨[.inserted ⟨0, 0⟩, .inserted ⟨1, 0⟩, .linked ⟨0, 0⟩ ⟨1, 0⟩, .removed ⟨0, 0⟩,
      .removed ⟨0, 0⟩], by decide⟩, by decide⟩
  obtain ⟨hchildren, -, hversion⟩ := hlive _ _ hsince
  exact ⟨hfew, by decide, by decide, hgone, (hdead _ hgone).2.2.2.1 _, hchildren.trans (by decide),
    hversion.trans (by decide)⟩

end Arena

end GradientGraph
