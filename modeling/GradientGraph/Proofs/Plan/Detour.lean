import GradientGraph.Proofs.Plan.Reach
import GradientGraph.Proofs.Plan.Solution

/-!
# Plans that differ by a detour

Two nodes lead to the same nodes, but where one leads to some of them at once the other goes
through a third node. The searches from the two meet the same otherwise. So do their plans,
and working off one finds for its target what working off the other finds, as long as the
rule makes no difference between the two ways.
-/

set_option autoImplicit false

namespace GradientGraph

namespace Plan

section Search

variable {α : Type} (a : Arena α) (computed : α → Bool)

/-- Whether `z'` leads where `z` leads, going through `u` to some of it. -/
structure Detour (u z z' : NodeId) : Prop where
  onward : ∀ c, Leads a computed .empty z c →
    Leads a computed .empty z' c ∨ Leads a computed .empty z' u ∧ Leads a computed .empty u c
  back : ∀ c, Leads a computed .empty z' c →
    Leads a computed .empty z c ∨
      c = u ∧ ∀ d, Leads a computed .empty u d → Leads a computed .empty z d

variable {a computed} {u z z' n : NodeId}

theorem mem_single {n m : NodeId} : n ∈ NodeSet.ofList [m] ↔ n = m := by
  rw [NodeSet.mem_ofList, List.mem_singleton]

theorem reaches_self : Reaches a computed (.ofList [z]) .empty z := .target (mem_single.mpr rfl)

theorem Reaches.leads (h : Reaches a computed (.ofList [z]) .empty n) :
    Relation.ReflTransGen (Leads a computed .empty) z n := by
  induction h with
  | target hn =>
    obtain rfl := mem_single.mp hn
    exact .refl
  | child _ hleads ih => exact ih.tail hleads

theorem Reaches.onward {targets : NodeSet} (h : Reaches a computed targets .empty n) {m : NodeId}
    (hm : Relation.ReflTransGen (Leads a computed .empty) n m) :
    Reaches a computed targets .empty m := by
  induction hm with
  | refl => exact h
  | tail _ hleads ih => exact .child ih hleads

/-- Nothing that a search without cycles meets leads back to its only target. -/
theorem not_leads_back (h : ¬Cyclic a computed (.ofList [z]) .empty)
    (hn : Reaches a computed (.ofList [z]) .empty n) : ¬Leads a computed .empty n z := by
  intro hleads
  exact h ⟨z, reaches_self, .tail' hn.leads hleads⟩

namespace Detour

variable (h : Detour a computed u z z')
include h

theorem reaches (hn : Reaches a computed (.ofList [z]) .empty n) :
    n = z ∨ Reaches a computed (.ofList [z']) .empty n := by
  induction hn with
  | target hn => exact .inl (mem_single.mp hn)
  | @child m c _ hleads ih =>
    refine .inr ?_
    rcases ih with rfl | hm
    · obtain hc | ⟨hu, hc⟩ := h.onward c hleads
      · exact .child reaches_self hc
      · exact .child (.child reaches_self hu) hc
    · exact .child hm hleads

theorem reached (hn : Reaches a computed (.ofList [z']) .empty n) :
    n = z' ∨ (n = u ∧ Leads a computed .empty z' u) ∨
      Reaches a computed (.ofList [z]) .empty n := by
  induction hn with
  | target hn => exact .inl (mem_single.mp hn)
  | @child m c _ hleads ih =>
    refine .inr ?_
    rcases ih with rfl | ⟨rfl, hu⟩ | hm
    · obtain hc | ⟨rfl, -⟩ := h.back c hleads
      · exact .inr (.child reaches_self hc)
      · exact .inl ⟨rfl, hleads⟩
    · obtain hu | ⟨-, hc⟩ := h.back m hu
      · exact .inr (.child (.child reaches_self hu) hleads)
      · exact .inr (.child reaches_self (hc c hleads))
    · exact .inr (.child hm hleads)

theorem reaches_beyond (hu : Leads a computed .empty z' u) {c : NodeId}
    (hc : Leads a computed .empty u c) : Reaches a computed (.ofList [z]) .empty c := by
  obtain hu | ⟨-, hall⟩ := h.back u hu
  · exact .child (.child reaches_self hu) hc
  · exact .child reaches_self (hall c hc)

theorem acyclic (hz : ¬Cyclic a computed (.ofList [z]) .empty) :
    ¬Cyclic a computed (.ofList [z']) .empty := by
  rintro ⟨n, hn, hcycle⟩
  -- a cycle that is not met from `z` would have to go through `z'` and `u` alone
  suffices hmet : Reaches a computed (.ofList [z]) .empty n from hz ⟨n, hmet, hcycle⟩
  obtain ⟨c, hleads, hback⟩ := Relation.TransGen.head'_iff.mp hcycle
  rcases h.reached hn with rfl | ⟨rfl, hu⟩ | hn
  · obtain hc | ⟨rfl, -⟩ := h.back c hleads
    · exact Reaches.onward (.child reaches_self hc) hback
    · rcases hback.cases_head with rfl | ⟨d, hd, hback⟩
      · exact h.reaches_beyond hleads hleads
      · exact (h.reaches_beyond hleads hd).onward hback
  · exact (h.reaches_beyond hu hleads).onward hback
  · exact hn

theorem build {p : Plan} (hp : Plan.build a computed (.ofList [z]) .empty = .ok p)
    (hz' : a.contains z') (hu : a.contains u) :
    ∃ q, Plan.build a computed (.ofList [z']) .empty = .ok q := by
  obtain ⟨hlive, hacyclic⟩ := build_ok_iff.mp ⟨p, hp⟩
  refine build_ok_iff.mpr ⟨fun n hn => ?_, h.acyclic hacyclic⟩
  rcases h.reached hn with rfl | ⟨rfl, -⟩ | hn
  · exact hz'
  · exact hu
  · exact hlive n hn

end Detour

end Search

variable {K X : Type}

/-- Two plans over the same formulas, one with the target `z` and one with the target `z'`.
The second works off `u` besides, if `z'` reads it. -/
structure Parallel (p q : Plan) (φ : NodeId → Option (Formula K)) (b b' : Formula K)
    (u z z' : NodeId) : Prop where
  left : φ z = some b
  right : φ z' = some b'
  target : z ∈ p.inner
  target' : z' ∈ q.inner
  outer : ∀ n, n ∈ p.outer ↔ n ∈ q.outer
  onward : ∀ n ∈ p.inner, n = z ∨ n ∈ q.inner
  back : ∀ n ∈ q.inner, n = z' ∨ (n = u ∧ u ∈ b'.expression.reads) ∨ n ∈ p.inner
  part : u ∈ b'.expression.reads → u ∈ q.inner
  unread : ∀ n ∈ p.inner, ∀ a, φ n = some a → z ∉ a.expression.reads
  unread' : ∀ n ∈ q.inner, ∀ a, φ n = some a → z' ∉ a.expression.reads

/-- Whether the rule finds for `z'` what it finds for `z`, once `u` has been worked off if
`z'` reads it; and finds something for `u` if it does so for `z`. -/
structure Levels (F : NodeId → (NodeId → X) → Option X) (b b' : Formula K) (u z z' : NodeId) :
    Prop where
  same : ∀ σ, (u ∈ b'.expression.reads → F u σ = some (σ u)) → F z' σ = F z σ
  part : ∀ σ x, u ∈ b'.expression.reads → u ∉ b.expression.reads → F z σ = some x →
    ∃ y, F u σ = some y

namespace Parallel

variable {p q : Plan} {φ : NodeId → Option (Formula K)} {b b' : Formula K} {u z z' : NodeId}
  {F : NodeId → (NodeId → X) → Option X} {ρ σ τ : NodeId → X}

theorem mem_order (h : Parallel p q φ b b' u z z') {n : NodeId} (hn : n ∈ p.order) (hz : n ≠ z) :
    n ∈ q.order := by
  rcases mem_order_iff.mp hn with ho | hi
  · exact mem_order_iff.mpr (.inl ((h.outer n).mp ho))
  · exact mem_order_iff.mpr (.inr ((h.onward n hi).resolve_left hz))

theorem mem_inner (h : Parallel p q φ b b' u z z') {n : NodeId} (hq : n ∈ q.inner)
    (hp : n ∈ p.order) : n ∈ p.inner := by
  refine (mem_order_iff.mp hp).resolve_left fun ho => ?_
  exact outer_disjoint_inner ((h.outer n).mp ho) hq

variable (h : Parallel p q φ b b' u z z') (hp : p.Ordered φ) (hq : q.Ordered φ) (hF : Local φ F)
  (hl : Levels F b b' u z z')
include h hp hF hl

theorem solves_left (hσ : q.Solves F σ) : p.Solves F (Function.update σ z (σ z')) := by
  intro n hn
  obtain ⟨a, ha⟩ := hp.computed n hn
  -- no node of the first plan reads `z`
  have hread : F n (Function.update σ z (σ z')) = F n σ := by
    refine hF n a ha _ _ fun c hc => Function.update_of_ne ?_ ..
    rintro rfl
    exact h.unread n hn a ha hc
  rw [hread]
  by_cases hz : n = z
  · subst hz
    rw [← hl.same σ fun hu => hσ u (h.part hu), hσ z' h.target', Function.update_self]
  · rw [hσ n ((h.onward n hn).resolve_left hz), Function.update_of_ne hz]

include hq

theorem exists_part (hσ : p.Solves F σ) :
    ∃ τ, (∀ n ∈ p.order, τ n = σ n) ∧ (u ∈ b'.expression.reads → F u τ = some (τ u)) := by
  by_cases hu : u ∈ b'.expression.reads ∧ u ∉ p.order
  · obtain ⟨hu, hnot⟩ := hu
    have hunread : u ∉ b.expression.reads := fun hread =>
      hnot (hp.reads_order h.target h.left hread)
    obtain ⟨y, hy⟩ := hl.part σ _ hu hunread (hσ z h.target)
    obtain ⟨a, ha⟩ := hq.computed u (h.part hu)
    refine ⟨Function.update σ u y, fun n hn => Function.update_of_ne ?_ .., fun _ => ?_⟩
    · rintro rfl
      exact hnot hn
    · rw [Function.update_self, ← hy]
      refine hF u a ha _ _ fun c hc => Function.update_of_ne ?_ ..
      rintro rfl
      exact hq.not_reads_self (h.part hu) ha hc
  · refine ⟨σ, fun _ _ => rfl, fun hread => hσ u (h.mem_inner (h.part hread) ?_)⟩
    by_contra hnot
    exact hu ⟨hread, hnot⟩

theorem solves_right (hσ : p.Solves F σ) :
    ∃ τ, q.Solves F τ ∧ τ z' = σ z ∧ ∀ n ∈ p.order, τ n = σ n := by
  obtain ⟨υ, hsame, hu⟩ := h.exists_part hp hq hF hl hσ
  -- the rule finds for `z'` what it found for `z`
  have hz' : F z' υ = some (σ z) := by
    rw [hl.same υ hu, hF.congr hp h.target hsame, hσ z h.target]
  have hτ : ∀ n ∈ p.order, Function.update υ z' (σ z) n = σ n := by
    intro n hn
    by_cases hnz : n = z'
    · subst hnz
      have hinner := h.mem_inner h.target' hn
      rw [Function.update_self]
      exact Option.some.inj (hz'.symm.trans ((hF.congr hp hinner hsame).trans (hσ n hinner)))
    · rw [Function.update_of_ne hnz, hsame n hn]
  refine ⟨Function.update υ z' (σ z), fun n hn => ?_, Function.update_self .., hτ⟩
  obtain ⟨a, ha⟩ := hq.computed n hn
  have hread : F n (Function.update υ z' (σ z)) = F n υ := by
    refine hF n a ha _ _ fun c hc => Function.update_of_ne ?_ ..
    rintro rfl
    exact h.unread' n hn a ha hc
  rw [hread]
  by_cases hnz : n = z'
  · subst hnz
    rw [hz', Function.update_self]
  · rcases (h.back n hn).resolve_left hnz with ⟨rfl, hread⟩ | hn
    · rw [hu hread, Function.update_of_ne hnz]
    · rw [hF.congr hp hn hsame, hσ n hn, hτ n (mem_order_iff.mpr (.inr hn))]

section Sources

variable (hsources : ∀ s ∈ p.outer, ρ s = τ s)
include hsources

theorem work_left (hσ : q.inner.foldlM (workStep F) τ = some σ) :
    ∃ υ, p.inner.foldlM (workStep F) ρ = some υ ∧ υ z = σ z' ∧
      ∀ n ∈ p.order, n ≠ z → υ n = σ n := by
  obtain ⟨υ, hυ, hall⟩ := (h.solves_left hp hF hl (solves_of_work hq hF hσ)).found hp hF (ρ := ρ)
    fun s hs => by
      have hne : s ≠ z := by
        rintro rfl
        exact outer_disjoint_inner hs h.target
      rw [Function.update_of_ne hne, hsources s hs,
        work_other hσ (outer_disjoint_inner ((h.outer s).mp hs))]
  refine ⟨υ, hυ, ?_, fun n hn hz => ?_⟩
  · rw [hall z (mem_order_iff.mpr (.inr h.target)), Function.update_self]
  · rw [hall n hn, Function.update_of_ne hz]

theorem work_right (hσ : p.inner.foldlM (workStep F) ρ = some σ) :
    ∃ υ, q.inner.foldlM (workStep F) τ = some υ ∧ υ z' = σ z ∧
      ∀ n ∈ p.order, n ∈ q.order → υ n = σ n := by
  obtain ⟨ω, hω, hz', hsame⟩ := h.solves_right hp hq hF hl (solves_of_work hp hF hσ)
  obtain ⟨υ, hυ, hall⟩ := hω.found hq hF (ρ := τ) fun s hs => by
    have hs := (h.outer s).mpr hs
    rw [hsame s (mem_order_iff.mpr (.inl hs)), work_other hσ (outer_disjoint_inner hs),
      hsources s hs]
  refine ⟨υ, hυ, ?_, fun n hn hq => ?_⟩
  · rw [hall z' (mem_order_iff.mpr (.inr h.target')), hz']
  · rw [hall n hq, hsame n hn]

end Sources

/-- The plans can be worked off one after the other if one of them can, in either order and
with the same end. -/
theorem work_both (hfit : (p.inner.foldlM (workStep F) ρ).isSome ∨
      (q.inner.foldlM (workStep F) ρ).isSome) :
    ∃ τ, (p.inner.foldlM (workStep F) ρ).bind (q.inner.foldlM (workStep F)) = some τ ∧
      (q.inner.foldlM (workStep F) ρ).bind (p.inner.foldlM (workStep F)) = some τ ∧
      p.Solves F τ ∧ q.Solves F τ ∧ τ z' = τ z := by
  have houter (s : NodeId) (hs : s ∈ p.outer) : s ∉ q.inner :=
    outer_disjoint_inner ((h.outer s).mp hs)
  have houter' (s : NodeId) (hs : s ∈ q.outer) : s ∉ p.inner :=
    outer_disjoint_inner ((h.outer s).mpr hs)
  have hleft : ∃ σ, p.inner.foldlM (workStep F) ρ = some σ := by
    rcases hfit with hfit | hfit
    · exact Option.isSome_iff_exists.mp hfit
    · obtain ⟨σ', hσ'⟩ := Option.isSome_iff_exists.mp hfit
      obtain ⟨σ, hσ, -⟩ := h.work_left hp hq hF hl (fun _ _ => rfl) hσ'
      exact ⟨σ, hσ⟩
  obtain ⟨σ, hσ⟩ := hleft
  obtain ⟨σ', hσ', -⟩ := h.work_right hp hq hF hl (τ := ρ) (fun _ _ => rfl) hσ
  -- what one plan left it leaves again, so the other can be worked off from there
  obtain ⟨τ, hτ, -⟩ := h.work_right hp hq hF hl (fun _ _ => rfl) (solves_of_work hp hF hσ).work
  obtain ⟨τ', hτ', -⟩ := h.work_left hp hq hF hl (ρ := σ') (fun _ _ => rfl)
    (solves_of_work hq hF hσ').work
  obtain ⟨hτp, hτq, hrest⟩ := solves_both hp hF houter hq hσ hτ
  obtain ⟨hτq', hτp', hrest'⟩ := solves_both hq hF houter' hp hσ' hτ'
  obtain rfl : τ' = τ := hτp'.unique_both hp hF hq houter houter' hτq' hτp hτq fun n hnp hnq =>
    (hrest' n hnq hnp).trans (hrest n hnp hnq).symm
  refine ⟨τ', by rw [hσ]; exact hτ, by rw [hσ']; exact hτ', hτp, hτq, ?_⟩
  have hfound := hl.same τ' fun hu => hτq u (h.part hu)
  rw [hτq z' h.target', hτp z h.target] at hfound
  exact Option.some.inj hfound

end Parallel

end Plan

end GradientGraph
