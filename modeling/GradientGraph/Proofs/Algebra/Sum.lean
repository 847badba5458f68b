import GradientGraph.Scalar.Total
import Mathlib.Algebra.BigOperators.Group.Finset.Sigma
import Mathlib.Algebra.BigOperators.Ring.Finset
import Mathlib.Tactic.Ring

/-!
# Sums over a ring

Where addition is associative and commutative the order of a sum is without
effect: sums from left to right, in lanes and in blocks of fused products are
all the sum of their terms. Exact scalars are multiplied and added in two
steps, and none of them is seen to be zero.
-/

set_option autoImplicit false

namespace GradientGraph

open Finset

section Sums

variable {K : Type} [AddCommMonoid K]

theorem totalFrom_eq_sum (start : K) (n : Nat) (f : Nat → K) :
    totalFrom start n f = start + ∑ i ∈ range n, f i := by
  induction n with
  | zero => simp [totalFrom]
  | succ n ih => rw [totalFrom, ih, sum_range_succ, add_assoc]

theorem total_eq_sum (n : Nat) (f : Nat → K) : total n f = ∑ i ∈ range n, f i := by
  rw [total, totalFrom_eq_sum, zero_add]

theorem sum_blocks (m s : Nat) (f : Nat → K) :
    ∑ b ∈ range s, ∑ a ∈ range m, f (m * b + a) = ∑ j ∈ range (m * s), f j := by
  induction s with
  | zero => simp
  | succ s ih => rw [sum_range_succ, ih, Nat.mul_succ, sum_range_add]

theorem laneTotal_eq_sum (n : Nat) (f : Nat → K) : laneTotal n f = ∑ i ∈ range n, f i := by
  have hlanes : total 4 (fun k => lane n f k + lane n f (k + 4)) =
      ∑ j ∈ range (8 * (n / 8)), f j := by
    have hjoined : ∑ k ∈ range 8, lane n f k =
        total 4 fun k => lane n f k + lane n f (k + 4) := by
      rw [total_eq_sum, sum_add_distrib, sum_range_add _ 4 4]
      simp only [Nat.add_comm]
    rw [← hjoined, ← sum_blocks, sum_comm]
    simp only [lane, total_eq_sum]
  calc laneTotal n f
      = ∑ j ∈ range (8 * (n / 8)), f j + ∑ i ∈ range (n % 8), f (8 * (n / 8) + i) := by
        rw [laneTotal, totalFrom_eq_sum, hlanes]
    _ = ∑ i ∈ range n, f i := by rw [← sum_range_add, Nat.div_add_mod]

end Sums

section Products

variable {K : Type} [CommRing K]

theorem productFrom_eq_sum (f g : Nat → K) (done run : K) (block : Nat) (ks : List Nat) :
    productFrom f g done run block ks = done + run + (ks.map fun k => f k * g k).sum := by
  induction ks generalizing done run block with
  | nil => simp [productFrom]
  | cons k ks ih =>
    rw [productFrom, List.map_cons, List.sum_cons]
    split
    · rw [ih]
      simp only [MulAdd.mulAdd]
      ring
    · rw [ih]
      simp only [MulAdd.mulAdd]
      ring

theorem productTotal_range (n : Nat) (f g : Nat → K) :
    productTotal f g (List.range n) = ∑ k ∈ range n, f k * g k := by
  rw [productTotal, productFrom_eq_sum, zero_add, zero_add]
  rfl

/-- Exact scalars are never left out of a product. -/
theorem support_exact (f : Nat → K) (n : Nat) (ks : List Nat) :
    support f n ks = List.range n ++ ks := by
  induction n generalizing ks with
  | zero => simp [support]
  | succ n ih =>
    rw [support, ih, List.range_succ, List.append_assoc]
    rfl

theorem sum_pick {n a : Nat} (ha : a < n) (f g : Nat → K) :
    ∑ l ∈ range n, (if a = l then f l else 0) * g l = f a * g a := by
  simp [ite_mul, ha]

theorem block_mod {m a : Nat} (ha : a < m) (b : Nat) : (m * b + a) % m = a := by
  rw [Nat.mul_add_mod, Nat.mod_eq_of_lt ha]

theorem block_div {m a : Nat} (ha : a < m) (b : Nat) : (m * b + a) / m = b := by
  rw [Nat.mul_add_div (by omega), Nat.div_eq_of_lt ha, Nat.add_zero]

theorem block_lt {m s a b : Nat} (ha : a < m) (hb : b < s) : a + m * b < m * s := by
  calc a + m * b < m + m * b := Nat.add_lt_add_right ha _
    _ = m * (b + 1) := by rw [Nat.mul_succ, Nat.add_comm]
    _ ≤ m * s := Nat.mul_le_mul_left m hb

theorem sum_pick_each {m a : Nat} (ha : a < m) (s : Nat) (f g : Nat → K) :
    ∑ j ∈ range (m * s), (if j % m = a then f (j / m) else 0) * g j =
      ∑ b ∈ range s, f b * g (a + m * b) := by
  rw [← sum_blocks]
  apply sum_congr rfl
  intro b _
  calc ∑ l ∈ range m, (if (m * b + l) % m = a then f ((m * b + l) / m) else 0) * g (m * b + l)
      = ∑ l ∈ range m, (if a = l then f b else 0) * g (m * b + l) := by
        apply sum_congr rfl
        intro l hl
        rw [block_mod (mem_range.mp hl), block_div (mem_range.mp hl)]
        simp only [eq_comm]
    _ = f b * g (a + m * b) := by
        rw [sum_pick ha (fun _ => f b) fun l => g (m * b + l), Nat.add_comm]

theorem sum_pick_block {n c : Nat} (hc : c < n) (s : Nat) (f g : Nat → K) :
    ∑ j ∈ range (s * n), (if c = j / s then f (j % s) else 0) * g j =
      ∑ b ∈ range s, f b * g (b + s * c) := by
  rw [← sum_blocks, sum_eq_single c]
  · apply sum_congr rfl
    intro b hb
    rw [block_mod (mem_range.mp hb), block_div (mem_range.mp hb), if_pos rfl, Nat.add_comm]
  · intro b _ hb
    apply sum_eq_zero
    intro l hl
    rw [block_div (mem_range.mp hl), if_neg (Ne.symm hb), zero_mul]
  · intro hn
    exact absurd (mem_range.mpr hc) hn

end Products

end GradientGraph
