import GradientGraph.Array.Mat
import Mathlib.LinearAlgebra.Finsupp.LinearCombination
import Mathlib.LinearAlgebra.Finsupp.LSum
import Mathlib.Tactic.Ring

/-!
# Matrices as linear maps

A matrix of any dimensions acts on families with finitely many entries:
coordinates beyond its columns are dropped. Matrices of all sizes then live in
one ring, where products are associative without regard to dimensions, and the
coefficients and the dimensions give the matrix back.
-/

set_option autoImplicit false

namespace GradientGraph
noncomputable section

open Finset

/-- Linear maps on families with finitely many entries. -/
abbrev Linear (K : Type) [CommRing K] := Module.End K (ℕ →₀ K)

namespace Linear

variable {K : Type} [CommRing K]

def ofEntries (rows cols : Nat) (f : Nat → Nat → K) : Linear K :=
  Finsupp.linearCombination K fun j =>
    if j < cols then ∑ i ∈ range rows, Finsupp.single i (f i j) else 0

def coeff (A : Linear K) (i j : Nat) : K := A (Finsupp.single j 1) i

theorem ext_coeff {A B : Linear K} (h : ∀ i j, A.coeff i j = B.coeff i j) : A = B := by
  apply Finsupp.lhom_ext'
  intro j
  apply LinearMap.ext_ring
  ext i
  exact h i j

@[simp] theorem coeff_zero (i j : Nat) : (0 : Linear K).coeff i j = 0 := rfl

@[simp] theorem coeff_add (A B : Linear K) (i j : Nat) :
    (A + B).coeff i j = A.coeff i j + B.coeff i j := rfl

theorem ofEntries_single (r c : Nat) (f : Nat → Nat → K) (j : Nat) :
    ofEntries r c f (Finsupp.single j 1) =
      if j < c then ∑ i ∈ range r, Finsupp.single i (f i j) else 0 := by
  rw [ofEntries, Finsupp.linearCombination_single, one_smul]

theorem coeff_ofEntries (r c : Nat) (f : Nat → Nat → K) (i j : Nat) :
    (ofEntries r c f).coeff i j = if i < r ∧ j < c then f i j else 0 := by
  rw [coeff, ofEntries_single]
  by_cases hj : j < c
  · rw [if_pos hj, Finsupp.finsetSum_apply]
    by_cases hi : i < r
    · rw [sum_eq_single i]
      · simp [hi, hj]
      · intro k _ hk
        exact Finsupp.single_eq_of_ne (Ne.symm hk)
      · simp [hi]
    · rw [if_neg fun h => hi h.1]
      apply sum_eq_zero
      intro k hk
      have := mem_range.mp hk
      exact Finsupp.single_eq_of_ne (by omega)
  · simp [hj]

theorem coeff_mul_ofEntries (A : Linear K) (r c : Nat) (f : Nat → Nat → K) (i j : Nat) :
    (A * ofEntries r c f).coeff i j =
      if j < c then ∑ l ∈ range r, A.coeff i l * f l j else 0 := by
  change A (ofEntries r c f (Finsupp.single j 1)) i = _
  rw [ofEntries_single]
  split
  · rw [map_sum, Finsupp.finsetSum_apply]
    apply sum_congr rfl
    intro l _
    have hl : Finsupp.single l (f l j) = f l j • Finsupp.single l (1 : K) := by simp
    rw [hl, map_smul, Finsupp.smul_apply, smul_eq_mul, coeff, mul_comm]
  · simp

theorem ofEntries_apply (r c : Nat) (f : Nat → Nat → K) (v : ℕ →₀ K) (i : Nat) :
    ofEntries r c f v i = if i < r then ∑ l ∈ range c, f i l * v l else 0 := by
  induction v using Finsupp.induction_linear with
  | zero => simp
  | add v w hv hw =>
    rw [map_add, Finsupp.add_apply, hv, hw]
    split
    · simp only [Finsupp.add_apply, mul_add, sum_add_distrib]
    · exact add_zero 0
  | single j x =>
    have hx : Finsupp.single j x = x • Finsupp.single j (1 : K) := by simp
    have hcoeff := coeff_ofEntries r c f i j
    rw [coeff] at hcoeff
    rw [hx, map_smul, Finsupp.smul_apply, smul_eq_mul, hcoeff]
    by_cases hi : i < r
    · by_cases hj : j < c
      · rw [if_pos ⟨hi, hj⟩, if_pos hi, sum_eq_single j]
        · simp [mul_comm]
        · intro l _ hl
          simp [Finsupp.single_eq_of_ne hl]
        · intro hn
          exact absurd (mem_range.mpr hj) hn
      · rw [if_neg fun h => hj h.2, if_pos hi, mul_zero, sum_eq_zero]
        intro l hl
        have hlj : l ≠ j := fun h => hj (h ▸ mem_range.mp hl)
        simp [Finsupp.single_eq_of_ne hlj]
    · rw [if_neg fun h => hi h.1, if_neg hi, mul_zero]

theorem coeff_ofEntries_mul (r c : Nat) (f : Nat → Nat → K) (A : Linear K) (i j : Nat) :
    (ofEntries r c f * A).coeff i j =
      if i < r then ∑ l ∈ range c, f i l * A.coeff l j else 0 := ofEntries_apply r c f _ i

theorem ofEntries_congr {r c : Nat} {f g : Nat → Nat → K}
    (h : ∀ i j, i < r → j < c → f i j = g i j) : ofEntries r c f = ofEntries r c g := by
  apply ext_coeff
  intro i j
  rw [coeff_ofEntries, coeff_ofEntries]
  split
  · rename_i hij
    exact h i j hij.1 hij.2
  · rfl

theorem ofEntries_mul (r c k : Nat) (f g : Nat → Nat → K) :
    ofEntries r c f * ofEntries c k g =
      ofEntries r k fun i j => ∑ l ∈ range c, f i l * g l j := by
  apply ext_coeff
  intro i j
  rw [coeff_mul_ofEntries, coeff_ofEntries]
  by_cases hj : j < k
  · by_cases hi : i < r
    · rw [if_pos hj, if_pos ⟨hi, hj⟩]
      apply sum_congr rfl
      intro l hl
      rw [coeff_ofEntries, if_pos ⟨hi, mem_range.mp hl⟩]
    · rw [if_pos hj, if_neg fun h => hi h.1]
      apply sum_eq_zero
      intro l _
      rw [coeff_ofEntries, if_neg fun h => hi h.1, zero_mul]
  · rw [if_neg hj, if_neg fun h => hj h.2]

theorem ofEntries_add (r c : Nat) (f g : Nat → Nat → K) :
    ofEntries r c f + ofEntries r c g = ofEntries r c fun i j => f i j + g i j := by
  apply ext_coeff
  intro i j
  rw [coeff_add, coeff_ofEntries, coeff_ofEntries, coeff_ofEntries]
  split
  · rfl
  · exact add_zero 0

theorem ofEntries_zero (r c : Nat) : ofEntries r c (fun _ _ => (0 : K)) = 0 := by
  apply ext_coeff
  intro i j
  simp [coeff_ofEntries]

def keep (n : Nat) : Linear K := ofEntries n n fun i j => if i = j then 1 else 0

theorem keep_mul_ofEntries (r c : Nat) (f : Nat → Nat → K) :
    keep r * ofEntries r c f = ofEntries r c f := by
  rw [keep, ofEntries_mul]
  apply ofEntries_congr
  intro i j hi _
  simp [hi]

theorem ofEntries_mul_keep (r c : Nat) (f : Nat → Nat → K) :
    ofEntries r c f * keep c = ofEntries r c f := by
  rw [keep, ofEntries_mul]
  apply ofEntries_congr
  intro i j _ hj
  simp [hj]

theorem coeff_keep_mul {n i : Nat} (hi : i < n) (A : Linear K) (j : Nat) :
    (keep n * A).coeff i j = A.coeff i j := by
  rw [keep, coeff_ofEntries_mul, if_pos hi]
  simp [hi]

end Linear

namespace Mat

variable {K : Type} [CommRing K]

def toLinear (m : Mat K) : Linear K := .ofEntries m.rows m.cols m.entry

theorem toLinear_tabulate (o : Order) (r c : Nat) (f : Nat → Nat → K) :
    (tabulate o r c f).toLinear = .ofEntries r c f :=
  Linear.ofEntries_congr fun _ _ hi hj => entry_tabulate o r c f hi hj

theorem toLinear_ofFn (r c : Nat) (f : Nat → Nat → K) :
    (ofFn r c f).toLinear = .ofEntries r c f := toLinear_tabulate .byRow r c f

end Mat

end
end GradientGraph
