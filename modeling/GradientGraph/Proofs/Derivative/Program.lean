import GradientGraph.Proofs.Derivative.Pass
import GradientGraph.Proofs.Program.Run

/-!
# What the passes of a program compute

Over exact scalars, on a graph whose evaluators are blank, each differentiating
pass of a program with a current plan runs to its end, and leaves derivatives of
the right dimensions that solve the equations of the plan.
-/

set_option autoImplicit false

namespace GradientGraph
noncomputable section

open Finset GradientGraph.Differential ExactDifferential GradientGraph.Graph

variable {K D : Type}

theorem Plan.ordered_of_current {p : Program D} {g : Graph K D} {plan : Plan}
    (h : p.Current g plan) (hg : g.Sound) : plan.Ordered g.formula? := by
  have hdesc := h.describes
  refine ⟨hdesc.nodup, ?_, ?_⟩
  · intro n hn
    obtain ⟨ho, hs⟩ := Plan.mem_inner.mp hn
    apply Option.ne_none_iff_exists'.mp
    intro hnone
    exact hs (h.sources_iff.mpr ⟨ho, .inr hnone⟩)
  · intro done n rest hsplit a ha c hc
    obtain ⟨l₁, l₂, horder, hdone, hrest⟩ := List.filter_eq_append_iff.mp hsplit
    obtain ⟨l₃, l₄, rfl, hl₃, hn, -⟩ := List.filter_eq_cons_iff.mp hrest
    have hsplit' : plan.order = (l₁ ++ l₃) ++ n :: l₄ := by rw [horder, List.append_assoc]
    have hchild : c ∈ Plan.childrenOf g.arena n := by
      rw [Plan.childrenOf, hg.linked n a ha]
      exact Formula.mem_children.mpr hc
    have hbefore := hdesc.ordered _ n _ hsplit' (by simpa using hn) c hchild
    by_cases hs : c ∈ plan.sources
    · exact .inl (h.mem_outer_iff.mpr hs)
    · refine .inr ?_
      rw [← hdone]
      rcases List.mem_append.mp hbefore with hl | hl
      · exact List.mem_filter.mpr ⟨hl, by simpa using hs⟩
      · exact absurd (by simpa using hs) (hl₃ c hl)

theorem Program.succeeds_of_some {g : Graph K D} {τ : NodeId → Option D}
    {x : Option (NodeId → Option D)} {y : Option ((Program D × Except Error Unit) × Graph K D)}
    (h : Option.Rel (Program.Succeeds g) x y) (hx : x = some τ) :
    ∃ q g', y = some ((q, .ok ()), g') ∧ OnlyDerivatives g g' ∧ g'.differential? = τ := by
  subst hx
  cases h with
  | some hr =>
    rename_i r
    obtain ⟨⟨q, e⟩, g'⟩ := r
    obtain ⟨rfl : e = .ok (), hg'⟩ := hr
    exact ⟨q, g', rfl, hg'⟩

theorem exists_derivative {P : NodeId → Prop} {τ : NodeId → Option D} {w : Nat}
    (h : (∀ n, P n → τ n = none) → w = 1) : w = 1 ∨ ∃ n, P n ∧ ∃ d, τ n = some d := by
  by_cases hnone : ∀ n, P n → τ n = none
  · exact .inl (h hnone)
  · simp only [not_forall] at hnone
    obtain ⟨n, hn, hne⟩ := hnone
    exact .inr ⟨n, hn, Option.ne_none_iff_exists'.mp hne⟩

section Widths

variable [Differential K D]

theorem Plan.widthUnder_eq {p : Plan} {τ : NodeId → Option D} {w : Nat}
    (hw : ∀ n ∈ p.outer, ∀ d, τ n = some d → (dims (K := K) d).2 = w)
    (hsome : w = 1 ∨ ∃ n ∈ p.outer, ∃ d, τ n = some d) : p.widthUnder τ = w := by
  rw [widthUnder]
  cases hfind : p.outer.findSome? τ with
  | some d =>
    obtain ⟨n, hn, hd⟩ := List.exists_of_findSome?_eq_some hfind
    exact hw n hn d hd
  | none =>
    rcases hsome with rfl | ⟨n, hn, d, hd⟩
    · rfl
    · rw [List.findSome?_eq_none_iff.mp hfind n hn] at hd
      cases hd

theorem Plan.heightUnder_eq {p : Plan} {targets : NodeSet} {τ : NodeId → Option D} {m : Nat}
    (hm : ∀ n ∈ p.order, n ∈ targets → ∀ d, τ n = some d → (dims (K := K) d).1 = m)
    (hsome : m = 1 ∨ ∃ n ∈ p.order, n ∈ targets ∧ ∃ d, τ n = some d) :
    p.heightUnder targets τ = m := by
  rw [heightUnder]
  cases hfind : (p.order.filter (· ∈ targets)).findSome? τ with
  | some d =>
    obtain ⟨n, hn, hd⟩ := List.exists_of_findSome?_eq_some hfind
    have hmem := List.mem_filter.mp hn
    exact hm n hmem.1 (by simpa using hmem.2) d hd
  | none =>
    rcases hsome with rfl | ⟨n, hn, ht, d, hd⟩
    · rfl
    · rw [List.findSome?_eq_none_iff.mp hfind n (by simp [hn, ht])] at hd
      cases hd

end Widths

section Seeds

variable [CommRing K] [Differential K D] [Tabulated K D] [ExactDifferential K D]

theorem Plan.sourceSeed_exact {ρ : NodeId → Option (Value K)} {s n : NodeId}
    (hs : Serves (D := D) (sizeUnder ρ s)) (hn : Serves (D := D) (sizeUnder ρ n)) :
    ∃ d : D, sourceSeed ρ s n = some d ∧ dims (K := K) d = (sizeUnder ρ n, sizeUnder ρ s) ∧
      toLinear d = if n = s then .keep (sizeUnder ρ s) else 0 := by
  by_cases h : n = s
  · subst h
    rw [sourceSeed, if_pos rfl, if_pos rfl]
    exact identity_exact hs
  · rw [sourceSeed, if_neg h, if_neg h]
    exact zeros_exact hn hs

theorem Plan.targetSeed_exact {ρ : NodeId → Option (Value K)} {t n : NodeId}
    (ht : Serves (D := D) (sizeUnder ρ t)) (hn : Serves (D := D) (sizeUnder ρ n)) :
    ∃ d : D, targetSeed ρ t n = some d ∧ dims (K := K) d = (sizeUnder ρ t, sizeUnder ρ n) ∧
      toLinear d = if n = t then .keep (sizeUnder ρ t) else 0 := by
  by_cases h : n = t
  · subst h
    rw [targetSeed, if_pos rfl, if_pos rfl]
    exact identity_exact ht
  · rw [targetSeed, if_neg h, if_neg h]
    exact zeros_exact ht hn

end Seeds

section Seeded

variable [CommRing K] [Calculus K] [Differential K D] [Tabulated K D] [ExactDifferential K D]
  {p : Program D} {g : Graph K D} {plan : Plan}

theorem Program.pushTangent_exact (h : p.Current g plan) (hg : g.Sound) (hb : g.Blank)
    (hf : plan.Fits D g.value? g.formula?) {w : Nat}
    (hshape : ∀ s ∈ plan.outer, ∀ d, g.differential? s = some d →
      dims (K := K) d = (g.sizeAt s, w))
    (hunset : (∀ s, s ∈ plan.outer → g.differential? s = none) → w = 1) :
    ∃ q g', p.pushTangent g = some ((q, .ok ()), g') ∧ OnlyDerivatives g g' ∧
      (∀ n ∈ plan.order, ∃ d, g'.differential? n = some d ∧
        dims (K := K) d = (g.sizeAt n, w)) ∧
      (∀ s ∈ plan.outer, reading (g'.differential? s) = reading (g.differential? s)) ∧
      ∀ n ∈ plan.inner, reading (g'.differential? n) = ∑ c ∈ plan.order.toFinset,
        nodePartial g.value? g.formula? n c * reading (g'.differential? c) := by
  obtain ⟨β, hβ⟩ := hg.named
  have hsome := exists_derivative hunset
  have hserved : Serves (D := D) w := by
    rcases hsome with rfl | ⟨s, hs, d, hd⟩
    · exact serves_one
    · have hcols := (serves_dims d).2
      rwa [hshape s hs d hd] at hcols
  have hwidth : plan.widthUnder g.differential? = w := by
    apply Plan.widthUnder_eq _ hsome
    intro s hs d hd
    rw [hshape s hs d hd]
  obtain ⟨τ', hτ', -, hall, houter, hinner⟩ :=
    Plan.forwardUnder_exact (Plan.ordered_of_current h hg) hf hwidth hserved hshape
  obtain ⟨q, g', hrun, hg', rfl⟩ := succeeds_of_some
    (pushTangent_run h (h.visitable hb hβ)) hτ'
  exact ⟨q, g', hrun, hg', hall, houter, hinner⟩

theorem Program.pushTangentAt_exact (h : p.Current g plan) (hg : g.Sound) (hb : g.Blank)
    (hf : plan.Fits D g.value? g.formula?) {s : NodeId} (hs : s ∈ plan.sources) :
    ∃ q g', p.pushTangentAt s g = some ((q, .ok ()), g') ∧ OnlyDerivatives g g' ∧
      (∀ n ∈ plan.order, ∃ d, g'.differential? n = some d ∧
        dims (K := K) d = (g.sizeAt n, g.sizeAt s)) ∧
      (∀ n ∈ plan.outer, reading (g'.differential? n) =
        if n = s then .keep (g.sizeAt s) else 0) ∧
      ∀ n ∈ plan.inner, reading (g'.differential? n) = ∑ c ∈ plan.order.toFinset,
        nodePartial g.value? g.formula? n c * reading (g'.differential? c) := by
  obtain ⟨β, hβ⟩ := hg.named
  have hso : s ∈ plan.outer := h.mem_outer_iff.mpr hs
  have hserved := hf.served s (h.sources_iff.mp hs).1
  have hseed (n : NodeId) (hn : n ∈ plan.outer) :=
    Plan.sourceSeed_exact hserved (hf.served n (Plan.mem_outer.mp hn).1)
  set τ : NodeId → Option D := fun n =>
    if n ∈ plan.outer then Plan.sourceSeed g.value? s n else g.differential? n with hτ
  have hgive := give_eq plan.outer (fun n hn => (hseed n hn).imp fun _ h => h.1)
    g.differential?
  have hshape : ∀ n ∈ plan.outer, ∀ d, τ n = some d →
      dims (K := K) d = (g.sizeAt n, g.sizeAt s) := by
    intro n hn d hd
    obtain ⟨d', hd', hdims, -⟩ := hseed n hn
    simp only [hτ, if_pos hn, hd'] at hd
    cases hd
    exact hdims
  have hwidth : plan.widthUnder τ = g.sizeAt s := by
    apply Plan.widthUnder_eq
    · intro n hn d hd
      rw [hshape n hn d hd]
    · obtain ⟨d, hd, -⟩ := hseed s hso
      exact .inr ⟨s, hso, d, by simp only [hτ, if_pos hso, hd]⟩
  obtain ⟨τ', hτ', -, hall, houter, hinner⟩ :=
    Plan.forwardUnder_exact (Plan.ordered_of_current h hg) hf hwidth hserved hshape
  obtain ⟨q, g', hrun, hg', rfl⟩ := succeeds_of_some
    (pushTangentAt_run h (h.visitable hb hβ) hs) (by rw [hgive, Option.bind_some, hτ'])
  refine ⟨q, g', hrun, hg', hall, ?_, hinner⟩
  intro n hn
  obtain ⟨d, hd, -, hlin⟩ := hseed n hn
  rw [houter n hn]
  simp only [hτ, if_pos hn, hd, reading_some, hlin]
  rfl

theorem Program.pullGradientAt_exact (h : p.Current g plan) (hg : g.Sound) (hb : g.Blank)
    (hf : plan.Fits D g.value? g.formula?) {t : NodeId} (ht : t ∈ p.targets) :
    ∃ q g', p.pullGradientAt t g = some ((q, .ok ()), g') ∧ OnlyDerivatives g g' ∧
      (∀ n ∈ plan.order, ∃ d, g'.differential? n = some d ∧
        dims (K := K) d = (g.sizeAt t, g.sizeAt n)) ∧
      ∀ n ∈ plan.order, reading (g'.differential? n) =
        (if n = t then .keep (g.sizeAt t) else 0) +
          ∑ q ∈ plan.inner.toFinset,
            reading (g'.differential? q) * nodePartial g.value? g.formula? q n := by
  obtain ⟨β, hβ⟩ := hg.named
  have hto : t ∈ plan.order := h.describes.targets t ht
  have hserved := hf.served t hto
  have hseed (n : NodeId) (hn : n ∈ plan.order) := Plan.targetSeed_exact hserved (hf.served n hn)
  have hgive := give_eq (plan.order.filter (· ∈ p.targets))
    (fun n hn => (hseed n (List.mem_filter.mp hn).1).imp fun _ h => h.1) g.differential?
  set τ : NodeId → Option D := fun n => if n ∈ plan.order.filter (· ∈ p.targets) then
    Plan.targetSeed g.value? t n else g.differential? n with hτ
  -- all targets are given seeds, and what other nodes of the plan held is dropped
  have hcleared (n : NodeId) (hn : n ∈ plan.order) : plan.cleared p.targets τ n =
      if n ∈ p.targets then Plan.targetSeed g.value? t n else none := by
    by_cases hnt : n ∈ p.targets <;> simp [Plan.cleared, hτ, hn, hnt]
  have hshape : ∀ n ∈ plan.order, ∀ d, plan.cleared p.targets τ n = some d →
      dims (K := K) d = (g.sizeAt t, g.sizeAt n) := by
    intro n hn d hd
    obtain ⟨d', hd', hdims, -⟩ := hseed n hn
    rw [hcleared n hn, hd'] at hd
    split at hd
    · cases hd
      exact hdims
    · cases hd
  have hheight : plan.heightUnder p.targets (plan.cleared p.targets τ) = g.sizeAt t := by
    apply Plan.heightUnder_eq
    · intro n hn _ d hd
      rw [hshape n hn d hd]
    · obtain ⟨d, hd, -⟩ := hseed t hto
      exact .inr ⟨t, hto, ht, d, by rw [hcleared t hto, if_pos ht, hd]⟩
  obtain ⟨τ', hτ', -, hall, hsolved⟩ :=
    Plan.backwardUnder_exact (Plan.ordered_of_current h hg) hf hheight hserved hshape
  obtain ⟨q, g', hrun, hg', rfl⟩ := succeeds_of_some
    (pullGradientAt_run h (h.visitable hb hβ) ht) (by rw [hgive, Option.bind_some, hτ'])
  refine ⟨q, g', hrun, hg', hall, ?_⟩
  intro n hn
  rw [hsolved n, hcleared n hn]
  congr 1
  obtain ⟨d, hd, -, hlin⟩ := hseed n hn
  by_cases hnt : n ∈ p.targets
  · rw [if_pos hnt, hd, reading_some, hlin]
    rfl
  · rw [if_neg hnt, reading_none, if_neg]
    rintro rfl
    exact hnt ht

end Seeded

end
end GradientGraph
