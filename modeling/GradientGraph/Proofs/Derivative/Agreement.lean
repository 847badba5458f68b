import GradientGraph.Proofs.Derivative.Twice

/-!
# Forward and reverse mode agree

The derivative of a target in a source does not depend on the direction in which
it is computed: the seeded forward pass leaves at the target what the seeded
reverse pass leaves at the source.
-/

set_option autoImplicit false

namespace GradientGraph
noncomputable section

open Finset GradientGraph.Differential ExactDifferential GradientGraph.Graph

variable {K D : Type} [CommRing K] [Differential K D] [Tabulated K D]

theorem entry_eq_of_toLinear {d d' : D} {r c : Nat} (hd : dims (K := K) d = (r, c))
    (hd' : dims (K := K) d' = (r, c)) (h : toLinear d = toLinear d') {i j : Nat}
    (hi : i < r) (hj : j < c) : Tabulated.entry d i j = Tabulated.entry d' i j := by
  have hcoeff := congrArg (Linear.coeff · i j) h
  simpa [toLinear, hd, hd', Linear.coeff_ofEntries, hi, hj] using hcoeff

variable [Calculus K] [ExactDifferential K D]

/-- A forward pass from a source and a reverse pass from a target leave derivatives that
stand for one map. -/
theorem Program.transposed {f f₁ f₂ : Program D} {g g₁ g₂ : Graph K D} {plan : Plan}
    (hcurrent : f.Current g plan) (hg : g.Sound) (hblank : g.Blank)
    (hfits : plan.Fits D g.value? g.formula?) {s t : NodeId} (hs : s ∈ plan.sources)
    (ht : t ∈ f.targets) (hpush : f.pushTangentAt s g = some ((f₁, .ok ()), g₁))
    (hpull : f.pullGradientAt t g = some ((f₂, .ok ()), g₂)) :
    ∃ forward reverse, g₁.differential? t = some forward ∧ g₂.differential? s = some reverse ∧
      dims (K := K) forward = (g.sizeAt t, g.sizeAt s) ∧
      dims (K := K) reverse = (g.sizeAt t, g.sizeAt s) ∧ toLinear forward = toLinear reverse := by
  obtain ⟨_, _, hpush', -, hall₁, houter, hinner⟩ := pushTangentAt_exact hcurrent hg hblank hfits hs
  cases hpush.symm.trans hpush'
  obtain ⟨_, _, hpull', -, hall₂, hsolved⟩ := pullGradientAt_exact hcurrent hg hblank hfits ht
  cases hpull.symm.trans hpull'
  have hso := (hcurrent.sources_iff.mp hs).1
  have hto := hcurrent.describes.targets t ht
  obtain ⟨forward, hforward, hfdims⟩ := hall₁ t hto
  obtain ⟨reverse, hreverse, hrdims⟩ := hall₂ s hso
  refine ⟨forward, reverse, hforward, hreverse, hfdims, hrdims, ?_⟩
  have hsub : plan.inner.toFinset ⊆ plan.order.toFinset := by
    intro n hn
    exact List.mem_toFinset.mpr (Plan.mem_inner.mp (List.mem_toFinset.mp hn)).1
  have hboundary := sum_boundary hsub (F := fun n => reading (g₁.differential? n))
    (R := fun n => reading (g₂.differential? n))
    (E := fun n => if n = t then .keep (g.sizeAt t) else 0)
    (fun n hn => hinner n (List.mem_toFinset.mp hn))
    (fun n hn => hsolved n (List.mem_toFinset.mp hn))
  -- at the boundary only `s` has a tangent, and only `t` has a seed
  have hleft : ∑ n ∈ plan.order.toFinset \ plan.inner.toFinset,
      reading (g₂.differential? n) * reading (g₁.differential? n) = toLinear reverse := by
    rw [sum_eq_single s]
    · rw [houter s (Plan.mem_outer.mpr ⟨hso, hs⟩), if_pos rfl, hreverse, reading_some,
        toLinear_mul_keep hrdims]
    · intro n hn hns
      simp only [mem_sdiff, List.mem_toFinset] at hn
      rw [houter n ((Plan.mem_order_iff.mp hn.1).resolve_right hn.2), if_neg hns, mul_zero]
    · intro hn
      simp only [mem_sdiff, List.mem_toFinset, not_and, not_not] at hn
      exact absurd (hn hso) (Plan.outer_disjoint_inner (Plan.mem_outer.mpr ⟨hso, hs⟩))
  have hright : ∑ n ∈ plan.order.toFinset, (if n = t then .keep (g.sizeAt t) else 0) *
      reading (g₁.differential? n) = toLinear forward := by
    rw [sum_eq_single t]
    · rw [if_pos rfl, hforward, reading_some, keep_mul_toLinear hfdims]
    · intro n _ hnt
      rw [if_neg hnt, zero_mul]
    · intro hn
      exact absurd (List.mem_toFinset.mpr hto) hn
  rw [← hleft, ← hright]
  exact hboundary.symm

/-- In exact arithmetic, what a forward pass from the source `s` leaves at the target
`t` is what a reverse pass from `t` leaves at `s`, entry by entry. -/
theorem Program.forward_eq_reverse {p f : Program D} {g : Graph K D} {plan : Plan}
    (hg : g.Sound) (hblank : g.Blank) (hcompile : p.compile g = (f, .ok ()))
    (hplan : f.plan? = some plan) (hfits : plan.Fits D g.value? g.formula?) {s t : NodeId}
    (hs : s ∈ plan.sources) (ht : t ∈ f.targets) :
    ∃ f₁ f₂ g₁ g₂ forward reverse,
      f.pushTangentAt s g = some ((f₁, .ok ()), g₁) ∧
      f.pullGradientAt t g = some ((f₂, .ok ()), g₂) ∧
      g₁.differential? t = some forward ∧ g₂.differential? s = some reverse ∧
      dims (K := K) forward = (g.sizeAt t, g.sizeAt s) ∧
      dims (K := K) reverse = (g.sizeAt t, g.sizeAt s) ∧
      ∀ i j, i < g.sizeAt t → j < g.sizeAt s →
        Tabulated.entry forward i j = Tabulated.entry reverse i j := by
  obtain ⟨plan', hstate, hcurrent, -⟩ := current_of_compile hcompile
  obtain rfl : plan' = plan := by simpa [plan?, hstate] using hplan
  obtain ⟨f₁, g₁, hpush, -⟩ := pushTangentAt_exact hcurrent hg hblank hfits hs
  obtain ⟨f₂, g₂, hpull, -⟩ := pullGradientAt_exact hcurrent hg hblank hfits ht
  obtain ⟨forward, reverse, hforward, hreverse, hfdims, hrdims, hlin⟩ :=
    transposed hcurrent hg hblank hfits hs ht hpush hpull
  exact ⟨f₁, f₂, g₁, g₂, forward, reverse, hpush, hpull, hforward, hreverse, hfdims, hrdims,
    fun i j hi hj => entry_eq_of_toLinear hfdims hrdims hlin hi hj⟩

/-- Both modes on the squares of two real numbers. -/
theorem Program.forward_eq_reverse_squares :
    let g : Graph ℝ (Mat ℝ) :=
      Twice.graph (.cwise .mul) (.vector #[1, 2]) (Twice.doubled .mul (.vector #[1, 2]))
        none none
    let f : Program (Mat ℝ) := { Twice.program with state := .compiled Twice.plan }
    ∃ f₁ f₂ g₁ g₂ forward reverse,
      f.pushTangentAt Twice.source g = some ((f₁, .ok ()), g₁) ∧
      f.pullGradientAt Twice.target g = some ((f₂, .ok ()), g₂) ∧
      g₁.differential? Twice.target = some forward ∧
      g₂.differential? Twice.source = some reverse ∧
      dims (K := ℝ) forward = (2, 2) ∧ dims (K := ℝ) reverse = (2, 2) ∧
      ∀ i j, i < 2 → j < 2 → forward.entry i j = reverse.entry i j := by
  intro g f
  have hcompile : (Twice.program : Program (Mat ℝ)).compile g = (f, .ok ()) := by
    rw [compile, Twice.build_eq]
  exact forward_eq_reverse (Twice.sound _ _ _ _ _) (Twice.blank _ _ _ _ _) hcompile rfl
    (Twice.fits _ _ _ _ _ (Twice.eval_doubled .mul _)) (List.mem_singleton_self _)
    (List.mem_singleton_self _)

end
end GradientGraph
