import GradientGraph.Proofs.Derivative.Twice
import GradientGraph.Proofs.Program.Memory

/-!
# The reverse pass solves the adjoint equations

After a reverse pass the derivative of every node of the plan is its seed, if it
is a target that held one, and what the nodes that read it pass on: their own
derivatives times their partial Jacobians.
-/

set_option autoImplicit false

namespace GradientGraph
noncomputable section

open Finset GradientGraph.Differential ExactDifferential GradientGraph.Graph

variable {K D : Type} [CommRing K] [Calculus K] [Differential K D] [Tabulated K D]
  [ExactDifferential K D]

/-- The seed of a node: what it held, if it is a target that held a derivative. -/
def seedReading (targets : NodeSet) (τ : NodeId → Option D) (n : NodeId) : Linear K :=
  if n ∈ targets then reading (τ n) else 0

/-- On a plan that is current, over values of the shapes that the expressions have,
the reverse pass runs to its end and solves the adjoint equations. -/
theorem Program.adjoint_of_current {p : Program D} {g : Graph K D} {plan : Plan}
    (hg : g.Sound) (hblank : g.Blank) (hcurrent : p.Current g plan)
    (hfits : plan.Fits D g.value? g.formula?) {seeded : NodeId → Option D}
    (hseeded : seeded = (plan.restoreSeeds p.seeds g).differential?) {m : Nat}
    (hshape : ∀ t ∈ p.targets, ∀ d, seeded t = some d → dims (K := K) d = (m, g.sizeAt t))
    (hunseeded : (∀ t, t ∈ p.targets → seeded t = none) → m = 1) :
    ∃ q g', p.pullGradient g = some ((q, .ok ()), g') ∧
      ∀ n ∈ plan.order, ∃ d, g'.differential? n = some d ∧
        dims (K := K) d = (m, g.sizeAt n) ∧
        toLinear d = seedReading p.targets seeded n +
          ∑ k ∈ plan.inner.toFinset,
            reading (g'.differential? k) * nodePartial g.value? g.formula? k n := by
  subst hseeded
  obtain ⟨β, hβ⟩ := hg.named
  set τ := (plan.restoreSeeds p.seeds g).differential? with hτ
  have hcleared (n : NodeId) (hn : n ∈ plan.order) :
      plan.cleared p.targets τ n = if n ∈ p.targets then τ n else none := by
    by_cases hnt : n ∈ p.targets <;> simp [Plan.cleared, hn, hnt]
  have hseed : ∀ n ∈ plan.order, ∀ d, plan.cleared p.targets τ n = some d →
      dims (K := K) d = (m, g.sizeAt n) := by
    intro n hn d hd
    rw [hcleared n hn] at hd
    split at hd
    · exact hshape n ‹_› d hd
    · cases hd
  have hsome : m = 1 ∨ ∃ n ∈ plan.order, n ∈ p.targets ∧
      ∃ d, plan.cleared p.targets τ n = some d := by
    rcases exists_derivative hunseeded with rfl | ⟨t, ht, d, hd⟩
    · exact .inl rfl
    · have hto := hcurrent.describes.targets t ht
      exact .inr ⟨t, hto, ht, d, by rw [hcleared t hto, if_pos ht, hd]⟩
  have hserved : Serves (D := D) m := by
    rcases hsome with rfl | ⟨n, hn, ht, d, hd⟩
    · exact serves_one
    · have hrows := (serves_dims d).1
      rwa [hseed n hn d hd] at hrows
  have hheight : plan.heightUnder p.targets (plan.cleared p.targets τ) = m := by
    apply Plan.heightUnder_eq _ hsome
    intro n hn _ d hd
    rw [hseed n hn d hd]
  obtain ⟨τ', hτ', -, hall, hsolved⟩ :=
    Plan.backwardUnder_exact (Plan.ordered_of_current hcurrent hg) hfits hheight hserved hseed
  obtain ⟨q, g', hrun, -, rfl⟩ := succeeds_of_some
    (pullGradient_run hcurrent (hcurrent.visitable hblank hβ)) hτ'
  refine ⟨q, g', hrun, ?_⟩
  intro n hn
  obtain ⟨d, hd, hdims⟩ := hall n hn
  refine ⟨d, hd, hdims, ?_⟩
  have hequation := hsolved n
  rw [hd, reading_some, hcleared n hn] at hequation
  rw [hequation, seedReading]
  congr 1
  by_cases hnt : n ∈ p.targets
  · rw [if_pos hnt, if_pos hnt]
  · rw [if_neg hnt, if_neg hnt, reading_none]

/-- A reverse pass that goes ahead, over values of the shapes that the expressions have,
solves the adjoint equations. The seeds are those that the targets hold once remembered
ones are restored; each has a column for every element of its target, and all have `m`
rows. -/
theorem Program.pullGradient_solves {p q : Program D} {g g' : Graph K D} {plan : Plan}
    (hg : g.Sound) (hblank : g.Blank) (hp : p.Recent g)
    (h : p.pullGradient g = some ((q, .ok ()), g')) (hplan : q.plan? = some plan)
    (hfits : plan.Fits D g.value? g.formula?) {seeded : NodeId → Option D}
    (hseeded : seeded = (plan.restoreSeeds p.seeds g).differential?) {m : Nat}
    (hshape : ∀ t ∈ p.targets, ∀ d, seeded t = some d → dims (K := K) d = (m, g.sizeAt t))
    (hunseeded : (∀ t, t ∈ p.targets → seeded t = none) → m = 1) :
    ∀ n ∈ plan.order, ∃ d, g'.differential? n = some d ∧ dims (K := K) d = (m, g.sizeAt n) ∧
      toLinear d = seedReading p.targets seeded n +
        ∑ k ∈ plan.inner.toFinset,
          reading (g'.differential? k) * nodePartial g.value? g.formula? k n := by
  have hcurrent := (current_iff_of_run (x := .pullGradient) hp h).mpr hplan
  obtain ⟨q', g'', hrun, hsolved⟩ :=
    adjoint_of_current hg hblank hcurrent hfits hseeded hshape hunseeded
  obtain ⟨-, rfl⟩ := Prod.mk.inj (Option.some.inj (h.symm.trans hrun))
  exact hsolved

/-- The reverse pass from a seed at the squares of two real numbers. -/
theorem Program.pullGradient_solves_squares :
    let g : Graph ℝ (Mat ℝ) :=
      Twice.graph (.cwise .mul) (.vector #[1, 2]) (Twice.doubled .mul (.vector #[1, 2]))
        none (some ⟨0, .ofFn 1 2 fun _ j => j + 1⟩)
    let f : Program (Mat ℝ) := Twice.program
    ∃ q g', f.pullGradient g = some ((q, .ok ()), g') ∧ q.plan? = some Twice.plan ∧
      ∀ n ∈ Twice.plan.order, ∃ d, g'.differential? n = some d ∧
        dims (K := ℝ) d = (1, g.sizeAt n) ∧
        toLinear d = seedReading f.targets g.differential? n +
          ∑ k ∈ Twice.plan.inner.toFinset,
            reading (g'.differential? k) * nodePartial g.value? g.formula? k n := by
  intro g f
  have hg : g.Sound := Twice.sound _ _ _ _ _
  have hblank : g.Blank := Twice.blank _ _ _ _ _
  have hcurrent : f.Current g Twice.plan := Twice.current _ _ _ _ _
  have hfits : Twice.plan.Fits (Mat ℝ) g.value? g.formula? :=
    Twice.fits _ _ _ _ _ (Twice.eval_doubled .mul _)
  have hshape : ∀ t ∈ f.targets, ∀ d, g.differential? t = some d →
      dims (K := ℝ) d = (1, g.sizeAt t) := by
    intro t ht d hd
    obtain rfl := List.mem_singleton.mp ht
    obtain rfl : Mat.ofFn 1 2 (fun _ j => (j : ℝ) + 1) = d := Option.some.inj hd
    rfl
  obtain ⟨q, g', hrun, -⟩ :=
    adjoint_of_current hg hblank hcurrent hfits rfl hshape fun _ => rfl
  have hplan := (current_iff_of_run (x := .pullGradient) hcurrent.recent hrun).mp hcurrent
  exact ⟨q, g', hrun, hplan,
    pullGradient_solves hg hblank hcurrent.recent hrun hplan hfits rfl hshape fun _ => rfl⟩

/-- Where a literal was replaced by one of another length and what is computed from it
was not, the reverse pass ends well and leaves a derivative of the former length. -/
theorem Program.pullGradient_stale :
    let g : Graph ℝ (Mat ℝ) := Twice.graph (.cwise .mul) (.vector #[5]) (.vector #[1, 4, 9])
      none (some ⟨0, .ofFn 1 3 fun _ _ => 1⟩)
    let f : Program (Mat ℝ) := Twice.program
    g.Sound ∧ g.Blank ∧ f.Current g Twice.plan ∧
      (∀ t ∈ f.targets, ∀ d, g.differential? t = some d →
        dims (K := ℝ) d = (1, g.sizeAt t)) ∧
      ∃ q g', f.pullGradient g = some ((q, .ok ()), g') ∧
        ∃ d, g'.differential? Twice.source = some d ∧
          dims (K := ℝ) d ≠ (1, g'.sizeAt Twice.source) := by
  intro g f
  have hcurrent : f.Current g Twice.plan := Twice.current _ _ _ _ _
  have hsound : g.Sound := Twice.sound _ _ _ _ _
  refine ⟨hsound, Twice.blank _ _ _ _ _, hcurrent, ?_, ?_⟩
  · intro t ht d hd
    obtain rfl := List.mem_singleton.mp ht
    obtain rfl : Mat.ofFn 1 3 (fun _ _ => (1 : ℝ)) = d := Option.some.inj hd
    rfl
  · obtain ⟨β, hβ⟩ := hsound.named
    have hplain : ∃ τ, Twice.plan.backwardUnder f.targets g.value? g.formula?
        g.differential? = some τ ∧ ∃ d, τ Twice.source = some d ∧ dims (K := ℝ) d = (1, 3) :=
      ⟨_, rfl, _, rfl, rfl⟩
    obtain ⟨τ, hτ, d, hd, hdims⟩ := hplain
    obtain ⟨q, g', hrun, hg', rfl⟩ := succeeds_of_some
      (pullGradient_run hcurrent (hcurrent.visitable (Twice.blank _ _ _ _ _) hβ)) hτ
    refine ⟨q, g', hrun, d, hd, ?_⟩
    have hsize : g'.sizeAt Twice.source = 1 := congrFun (sizeAt_congr hg'.statics) Twice.source
    rw [hdims, hsize]
    decide

end
end GradientGraph
