import GradientGraph.Host.Overload
import Mathlib.Data.List.Induction

/-!
# Overloads by rank

An overload that is registered goes behind all of lower or equal rank. What a set then tries
first is the least in rank of those that take the arguments, and among equals the one that was
registered first. The order of registration has no other effect: it is seen among equals only.
-/

set_option autoImplicit false

namespace GradientGraph

theorem lex_iff {as bs : List Nat} : List.Lex (· < ·) as bs ↔ ranksLe bs as = false := by
  induction as generalizing bs with
  | nil => cases bs <;> simp [ranksLe]
  | cons a as ih =>
    cases bs with
    | nil => simp [ranksLe]
    | cons b bs =>
      rw [List.cons_lex_cons_iff, ih]
      rcases Nat.lt_trichotomy a b with h | rfl | h
      · simp [ranksLe, h, Nat.lt_asymm h, Nat.ne_of_gt h]
      · simp [ranksLe]
      · simp [ranksLe, h, Nat.lt_asymm h, Nat.ne_of_gt h]

theorem ranksLe_refl (as : List Nat) : ranksLe as as := (ranksLe_total as as).elim id id

theorem ranksLe_antisymm {as bs : List Nat} (h : ranksLe as bs) (h' : ranksLe bs as) :
    as = bs := by
  induction as generalizing bs with
  | nil => cases bs <;> simp_all [ranksLe]
  | cons a as ih =>
    cases bs with
    | nil => simp [ranksLe] at h
    | cons b bs =>
      simp only [ranksLe, Bool.or_eq_true, decide_eq_true_eq, Bool.and_eq_true] at h h'
      obtain rfl : a = b := by omega
      rw [ih (h.resolve_left (Nat.lt_irrefl a)).2 (h'.resolve_left (Nat.lt_irrefl a)).2]

namespace OverloadSet

/-- The overloads in the order in which they are tried, when they are registered in the order
of the list. -/
def inRanks (bs : List Body) : List Body := bs.foldl (fun cs b => insertList b cs) []

def Ranked (bs : List Body) : Prop := bs.Pairwise fun b c => ranksLe b.ranks c.ranks

theorem inRanks_concat (bs : List Body) (b : Body) :
    inRanks (bs ++ [b]) = insertList b (inRanks bs) := List.foldl_append

theorem ranked_inRanks (bs : List Body) : Ranked (inRanks bs) := by
  induction bs using List.reverseRecOn with
  | nil => exact .nil
  | append_singleton bs b ih =>
    rw [inRanks_concat]
    exact pairwise_insertList b ih

section Order

variable {as bs cs : List Body} {b : Body} {ranks : List Nat}

theorem Ranked.head_le {c : Body} (h : Ranked (b :: bs)) (hc : c ∈ b :: bs) :
    ranksLe b.ranks c.ranks := by
  obtain rfl | hc := List.mem_cons.mp hc
  · exact ranksLe_refl _
  · exact List.rel_of_pairwise_cons h hc

/-- A new overload stands where those of lower or equal rank end. -/
theorem exists_partition (h : Ranked cs) (b : Body) : ∃ lower higher, cs = lower ++ higher ∧
    insertList b cs = lower ++ b :: higher ∧ (∀ c ∈ lower, ranksLe c.ranks b.ranks) ∧
      ∀ c ∈ higher, ¬ranksLe c.ranks b.ranks := by
  induction cs with
  | nil => exact ⟨[], [], rfl, rfl, by simp, by simp⟩
  | cons c cs ih =>
    rw [insertList]
    split
    · rename_i hcb
      obtain ⟨lower, higher, hcs, hinsert, hlower, hhigher⟩ := ih h.of_cons
      exact ⟨c :: lower, higher, congrArg (c :: ·) hcs, congrArg (c :: ·) hinsert,
        List.forall_mem_cons.mpr ⟨hcb, hlower⟩, hhigher⟩
    · rename_i hcb
      exact ⟨[], c :: cs, rfl, rfl, by simp,
        fun d hd hdb => hcb (ranksLe_trans (h.head_le hd) hdb)⟩

theorem filter_insertList (h : Ranked cs) (b : Body) (ranks : List Nat) :
    (insertList b cs).filter (·.ranks = ranks) =
      cs.filter (·.ranks = ranks) ++ [b].filter (·.ranks = ranks) := by
  obtain ⟨lower, higher, rfl, hinsert, -, hhigher⟩ := exists_partition h b
  rw [hinsert, List.filter_append, List.filter_append, List.append_assoc]
  by_cases hb : b.ranks = ranks
  · have hnone : higher.filter (·.ranks = ranks) = [] := by
      rw [List.filter_eq_nil_iff]
      intro d hd hdr
      apply hhigher d hd
      rw [of_decide_eq_true hdr, hb]
      exact ranksLe_refl ranks
    rw [List.filter_cons, hnone]
    simp [hb]
  · simp [hb]

theorem filter_inRanks (bs : List Body) (ranks : List Nat) :
    (inRanks bs).filter (·.ranks = ranks) = bs.filter (·.ranks = ranks) := by
  induction bs using List.reverseRecOn with
  | nil => rfl
  | append_singleton bs b ih =>
    rw [inRanks_concat, filter_insertList (ranked_inRanks bs), ih, List.filter_append]

theorem mem_of_filters
    (h : ∀ ranks, as.filter (·.ranks = ranks) = bs.filter (·.ranks = ranks)) (hb : b ∈ as) :
    b ∈ bs := by
  have hmem : b ∈ as.filter (·.ranks = b.ranks) := List.mem_filter.mpr ⟨hb, by simp⟩
  rw [h] at hmem
  exact (List.mem_filter.mp hmem).1

/-- What is in the order of ranks is known by the overloads of each rank. -/
theorem Ranked.eq (has : Ranked as) (hbs : Ranked bs)
    (h : ∀ ranks, as.filter (·.ranks = ranks) = bs.filter (·.ranks = ranks)) : as = bs := by
  induction as generalizing bs with
  | nil =>
    cases bs with
    | nil => rfl
    | cons b bs => simpa using h b.ranks
  | cons a as ih =>
    cases bs with
    | nil => simpa using h a.ranks
    | cons b bs =>
      have ha : a ∈ b :: bs := mem_of_filters h List.mem_cons_self
      have hb : b ∈ a :: as := mem_of_filters (fun ranks => (h ranks).symm) List.mem_cons_self
      have hranks : b.ranks = a.ranks := ranksLe_antisymm (hbs.head_le ha) (has.head_le hb)
      have hheads := h a.ranks
      rw [List.filter_cons_of_pos (by simp), List.filter_cons_of_pos (by simpa using hranks)]
        at hheads
      obtain rfl := (List.cons.inj hheads).1
      refine congrArg (a :: ·) (ih has.of_cons hbs.of_cons fun ranks => ?_)
      have hboth := h ranks
      rw [List.filter_cons, List.filter_cons] at hboth
      split at hboth
      · exact (List.cons.inj hboth).2
      · exact hboth

/-- The order of registration is seen among those of equal rank only. -/
theorem inRanks_congr (h : ∀ ranks, as.filter (·.ranks = ranks) = bs.filter (·.ranks = ranks)) :
    inRanks as = inRanks bs :=
  (ranked_inRanks as).eq (ranked_inRanks bs) fun ranks => by
    rw [filter_inRanks, filter_inRanks, h]

theorem inRanks_of_ranked (h : Ranked bs) : inRanks bs = bs :=
  (ranked_inRanks bs).eq h (filter_inRanks bs)

theorem foldl_insertList (h : Ranked cs) (bs : List Body) :
    bs.foldl (fun cs b => insertList b cs) cs = inRanks (cs ++ bs) := by
  rw [inRanks, List.foldl_append, ← inRanks, inRanks_of_ranked h]

end Order

end OverloadSet

section Selection

variable {K : Type} [Zero K] {bs : List Body} {args : List (Object K)} {b : Body} {i : Nat}
  {c : Call K}

theorem Body.body_of_call? (h : b.call? args = some c) : c.body = b := by
  obtain ⟨_, -, rfl⟩ := Option.map_eq_some_iff.mp h
  rfl

namespace OverloadSet

/-- Whether the call is that of the overload in place `i`, and no other that takes the
arguments has lower ranks, or equal ones and an earlier place. -/
structure Leads (bs : List Body) (args : List (Object K)) (i : Nat) (c : Call K) : Prop where
  place : bs[i]? = some c.body
  takes : c.body.call? args = some c
  least : ∀ (j : Nat) b, bs[j]? = some b → (b.call? args).isSome →
    List.Lex (· < ·) c.body.ranks b.ranks ∨ c.body.ranks = b.ranks ∧ i ≤ j

namespace Leads

theorem not_refused (h : Leads bs args i c) (hnone : ∀ b ∈ bs, b.call? args = none) :
    False := by
  have htakes := h.takes
  rw [hnone c.body (List.mem_of_getElem? h.place)] at htakes
  cases htakes

theorem ranks_le (h : Leads bs args i c) {j : Nat} (hb : bs[j]? = some b)
    (htakes : (b.call? args).isSome) : ranksLe c.body.ranks b.ranks := by
  obtain hlt | ⟨heq, -⟩ := h.least j b hb htakes
  · exact (ranksLe_total _ _).resolve_right (by simp [lex_iff.mp hlt])
  · exact heq ▸ ranksLe_refl _

theorem cases_concat {j : Nat} {d : Body} (h : (bs ++ [b])[j]? = some d) :
    bs[j]? = some d ∨ j = bs.length ∧ d = b := by
  rw [List.getElem?_append] at h
  split at h
  · exact .inl h
  · rename_i hj
    obtain ⟨hlt, hd⟩ := List.getElem?_eq_some_iff.mp h
    have hj : j = bs.length := by simp at hlt; omega
    subst hj
    exact .inr ⟨rfl, by simpa using hd.symm⟩

theorem concat (h : Leads bs args i c)
    (hb : (b.call? args).isSome → ranksLe c.body.ranks b.ranks) :
    Leads (bs ++ [b]) args i c := by
  obtain ⟨hi, -⟩ := List.getElem?_eq_some_iff.mp h.place
  refine ⟨by rw [List.getElem?_append_left hi, h.place], h.takes, fun j d hd htakes => ?_⟩
  obtain hd | ⟨rfl, rfl⟩ := cases_concat hd
  · exact h.least j d hd htakes
  · by_cases hle : ranksLe d.ranks c.body.ranks
    · exact .inr ⟨ranksLe_antisymm (hb htakes) hle, Nat.le_of_lt hi⟩
    · exact .inl (lex_iff.mpr (by simpa using hle))

theorem last (hc : b.call? args = some c)
    (hleast : ∀ d ∈ bs, (d.call? args).isSome → List.Lex (· < ·) b.ranks d.ranks) :
    Leads (bs ++ [b]) args bs.length c := by
  obtain rfl := Body.body_of_call? hc
  refine ⟨by simp, hc, fun j d hd htakes => ?_⟩
  obtain hd | ⟨rfl, rfl⟩ := cases_concat hd
  · exact .inl (hleast d (List.mem_of_getElem? hd) htakes)
  · exact .inr ⟨rfl, Nat.le_refl _⟩

theorem unique {j : Nat} {d : Call K} (h : Leads bs args i c) (h' : Leads bs args j d) :
    c = d := by
  have hc : (c.body.call? args).isSome := by rw [h.takes]; rfl
  have hd : (d.body.call? args).isSome := by rw [h'.takes]; rfl
  have hij : i ≤ j := by
    obtain hlt | ⟨-, hle⟩ := h.least j d.body h'.place hd
    · rw [lex_iff, h'.ranks_le h.place hc] at hlt
      cases hlt
    · exact hle
  have hji : j ≤ i := by
    obtain hlt | ⟨-, hle⟩ := h'.least i c.body h.place hc
    · rw [lex_iff, h.ranks_le h'.place hd] at hlt
      cases hlt
    · exact hle
  obtain rfl := Nat.le_antisymm hij hji
  have hbody : c.body = d.body := Option.some.inj (h.place.symm.trans h'.place)
  exact Option.some.inj (h.takes.symm.trans (hbody ▸ h'.takes))

theorem of_params {ds : List Body} (hparams : bs.map (·.params) = ds.map (·.params))
    (h : Leads bs args i c) : ∃ d, Leads ds args i d ∧ d.body.params = c.body.params := by
  have hat {es fs : List Body} (heq : es.map (·.params) = fs.map (·.params)) {j : Nat} {e : Body}
      (he : es[j]? = some e) : ∃ f, fs[j]? = some f ∧ f.params = e.params := by
    have hj := congrArg (fun ps => ps[j]?) heq
    rw [List.getElem?_map, List.getElem?_map, he, Option.map_some] at hj
    exact Option.map_eq_some_iff.mp hj.symm
  have htakes {e f : Body} (heq : f.params = e.params) :
      (f.call? args).isSome = (e.call? args).isSome := by
    rw [Body.call?, Body.call?, Option.isSome_map, Option.isSome_map, heq]
  obtain ⟨b, hb, hbc⟩ := hat hparams h.place
  obtain ⟨d, hd⟩ := Option.isSome_iff_exists.mp ((htakes hbc).trans (by rw [h.takes]; rfl))
  obtain rfl := Body.body_of_call? hd
  refine ⟨d, ⟨hb, hd, fun j f hf hcall => ?_⟩, hbc⟩
  obtain ⟨e, he, hef⟩ := hat hparams.symm hf
  rw [Body.ranks, Body.ranks, hbc, ← hef]
  exact h.least j e he ((htakes hef).trans hcall)

end Leads

/-- Which overload is called is told by the parameters of all, whatever they do. So any function
may stand in the place of another that has its parameters. -/
theorem leads_iff_of_params {ds : List Body} (h : bs.map (·.params) = ds.map (·.params)) :
    (∃ c, Leads bs args i c) ↔ ∃ d, Leads ds args i d := by
  constructor
  · rintro ⟨c, hc⟩
    obtain ⟨d, hd, -⟩ := hc.of_params h
    exact ⟨d, hd⟩
  · rintro ⟨d, hd⟩
    obtain ⟨c, hc, -⟩ := hd.of_params h.symm
    exact ⟨c, hc⟩

theorem findSome?_insertList {cs : List Body} (h : Ranked cs) (b : Body) :
    (insertList b cs).findSome? (·.call? args) =
      match cs.findSome? (·.call? args) with
      | none => b.call? args
      | some c => if ranksLe c.body.ranks b.ranks then some c else (b.call? args).or (some c) := by
  obtain ⟨lower, higher, rfl, hinsert, hlower, hhigher⟩ := exists_partition h b
  rw [hinsert, List.findSome?_append, List.findSome?_append, List.findSome?_cons]
  have hfound {bs : List Body} {c : Call K} (hc : bs.findSome? (·.call? args) = some c) :
      c.body ∈ bs := by
    obtain ⟨d, hd, hcall⟩ := List.exists_of_findSome?_eq_some hc
    exact Body.body_of_call? hcall ▸ hd
  cases hlow : lower.findSome? (·.call? args) with
  | some c => simp [hlower c.body (hfound hlow)]
  | none =>
    cases hhigh : higher.findSome? (·.call? args) with
    | none => cases b.call? args <;> rfl
    | some c =>
      simp only [Option.none_or, if_neg (hhigher c.body (hfound hhigh))]
      cases b.call? args <;> rfl

theorem leads_or_refuses (bs : List Body) (args : List (Object K)) :
    (∃ i c, Leads bs args i c ∧ (inRanks bs).findSome? (·.call? args) = some c) ∨
      (∀ b ∈ bs, b.call? args = none) ∧ (inRanks bs).findSome? (·.call? args) = none := by
  induction bs using List.reverseRecOn with
  | nil => exact .inr ⟨fun b hb => (List.not_mem_nil hb).elim, rfl⟩
  | append_singleton bs b ih =>
    rw [inRanks_concat, findSome?_insertList (ranked_inRanks bs)]
    obtain ⟨i, c, hlead, hfirst⟩ | ⟨hnone, hfirst⟩ := ih
    · simp only [hfirst]
      by_cases hle : ranksLe c.body.ranks b.ranks
      · exact .inl ⟨i, c, hlead.concat fun _ => hle, if_pos hle⟩
      · rw [if_neg hle]
        cases hb : b.call? args with
        | none => exact .inl ⟨i, c, hlead.concat fun h => by simp [hb] at h, rfl⟩
        | some e =>
          refine .inl ⟨bs.length, e, .last hb fun d hd htakes => ?_, rfl⟩
          obtain ⟨j, hj⟩ := List.mem_iff_getElem?.mp hd
          refine lex_iff.mpr (Bool.eq_false_iff.mpr fun hdb => hle ?_)
          exact ranksLe_trans (hlead.ranks_le hj htakes) hdb
    · simp only [hfirst]
      cases hb : b.call? args with
      | none =>
        refine .inr ⟨fun d hd => ?_, rfl⟩
        obtain hd | hd := List.mem_append.mp hd
        · exact hnone d hd
        · exact List.mem_singleton.mp hd ▸ hb
      | some e =>
        refine .inl ⟨bs.length, e, .last hb fun d hd htakes => ?_, rfl⟩
        simp [hnone d hd] at htakes

end OverloadSet

end Selection

section Binding

variable {K : Type} [Zero K] {pre post : List Param} {us ws : List (Object K)}

theorem Param.isSome_convertAll? (hpre : (convertAll? pre us).isSome)
    (hpost : (convertAll? post ws).isSome) (p : Param) (o : Object K) :
    (convertAll? (pre ++ p :: post) (us ++ o :: ws)).isSome = (p.convert? o).isSome := by
  obtain ⟨zs, hzs⟩ := Option.isSome_iff_exists.mp hpost
  induction pre generalizing us with
  | nil =>
    cases us with
    | nil =>
      rw [List.nil_append, List.nil_append, convertAll?, hzs]
      cases p.convert? o <;> rfl
    | cons u us => simp [convertAll?] at hpre
  | cons q pre ih =>
    cases us with
    | nil => simp [convertAll?] at hpre
    | cons u us =>
      rw [convertAll?] at hpre
      cases hu : q.convert? u with
      | none => simp [hu] at hpre
      | some x =>
        cases hus : convertAll? pre us with
        | none => simp [hu, hus] at hpre
        | some xs =>
          have hrest := @ih us (by rw [hus]; rfl)
          rw [List.cons_append, List.cons_append, convertAll?, hu, ← hrest]
          cases convertAll? (pre ++ p :: post) (us ++ o :: ws) <;> rfl

theorem Category.rank_injective {c d : Category} (h : c.rank = d.rank) : c = d := by
  cases c <;> cases d <;> first | rfl | cases h

theorem ranksLe_middle {as bs cs : List Nat} {a b : Nat}
    (h : ranksLe (as ++ a :: bs) (as ++ b :: cs)) : a ≤ b := by
  induction as with
  | nil =>
    simp only [List.nil_append, ranksLe, Bool.or_eq_true, decide_eq_true_eq,
      Bool.and_eq_true] at h
    omega
  | cons c as ih =>
    apply ih
    simpa [ranksLe] using h

/-- Of overloads that differ in one parameter only, the one of least rank that takes the
argument there is called. -/
theorem leads_of_least {bs : List Body} {o : Object K} {c : Category}
    (hpre : (Param.convertAll? pre us).isSome) (hpost : (Param.convertAll? post ws).isSome)
    (hbs : ∀ b ∈ bs, ∃ d, b.params = pre ++ .value d :: post)
    (hc : ∃ b ∈ bs, b.params = pre ++ .value c :: post)
    (htakes : ((Param.value c).convert? o).isSome)
    (hleast : ∀ d, ((Param.value d).convert? o).isSome → c.rank ≤ d.rank) :
    ∃ i call, OverloadSet.Leads bs (us ++ o :: ws) i call ∧
      call.body.params = pre ++ .value c :: post := by
  have hcall {b : Body} {d : Category} (hb : b.params = pre ++ .value d :: post) :
      (b.call? (us ++ o :: ws)).isSome = ((Param.value d).convert? o).isSome := by
    rw [Body.call?, Option.isSome_map, hb]
    exact Param.isSome_convertAll? hpre hpost _ o
  obtain ⟨b, hmem, hb⟩ := hc
  obtain ⟨i, call, hlead, -⟩ | ⟨hnone, -⟩ :=
    OverloadSet.leads_or_refuses bs (us ++ o :: ws)
  · obtain ⟨d, hd⟩ := hbs call.body (List.mem_of_getElem? hlead.place)
    obtain ⟨j, hj⟩ := List.mem_iff_getElem?.mp hmem
    have hdc : d.rank ≤ c.rank := by
      have hle := hlead.ranks_le hj ((hcall hb).trans htakes)
      rw [Body.ranks, Body.ranks, hb, hd, List.map_append, List.map_append] at hle
      exact ranksLe_middle hle
    have hcd : c.rank ≤ d.rank := hleast d (by rw [← hcall hd, hlead.takes]; rfl)
    obtain rfl := Category.rank_injective (Nat.le_antisymm hdc hcd)
    exact ⟨i, call, hlead, hd⟩
  · rw [← hcall hb, hnone b hmem] at htakes
    cases htakes

theorem convert_column {a : Tensor K} {n : Nat} (h : a.dims = [n] ∨ a.dims = [n, 1]) :
    ((Param.value .vector).convert? (.array a)).isSome ∧
      ∀ d, ((Param.value d).convert? (.array a)).isSome → Category.vector.rank ≤ d.rank := by
  refine ⟨?_, fun d hd => ?_⟩
  · obtain h | h := h <;> simp [Param.convert?, Object.toValue?, Tensor.toVector?, h]
  · cases d with
    | scalar => simp [Param.convert?, Object.toValue?] at hd
    | vector => exact Nat.le_refl _
    | matrix => exact Nat.le_succ _

theorem convert_matrix {a : Tensor K} {r k : Nat} (h : a.dims = [r, k]) (hk : k ≠ 1) :
    ((Param.value .matrix).convert? (.array a)).isSome ∧
      ∀ d, ((Param.value d).convert? (.array a)).isSome → Category.matrix.rank ≤ d.rank := by
  refine ⟨by simp [Param.convert?, Object.toValue?, Tensor.toMatrix?, h], fun d hd => ?_⟩
  cases d with
  | scalar => simp [Param.convert?, Object.toValue?] at hd
  | vector => simp [Param.convert?, Object.toValue?, Tensor.toVector?, h, hk] at hd
  | matrix => exact Nat.le_refl _

end Binding

end GradientGraph
