import GradientGraph.Proofs.Algebra.Dims
import GradientGraph.Proofs.Algebra.Linear
import GradientGraph.Proofs.Algebra.Sum

/-!
# Products of matrices and Jacobians

Over exact scalars the products of the library are those of linear maps: the
matrix product in either order of entries, and each structured Jacobian on
either side of a matrix whose dimensions fit.
-/

set_option autoImplicit false

namespace GradientGraph
noncomputable section

open Finset

variable {K : Type} [CommRing K]

namespace Mat

theorem isFinite_exact (m : Mat K) : m.isFinite = true := by
  simp [isFinite, MulAdd.isFinite]

theorem rowSupports_exact (m : Mat K) (i : Nat) :
    m.rowSupports.getD i (List.range m.cols) = List.range m.cols := by
  by_cases hi : i < m.rows <;> simp [rowSupports, support_exact, hi]

theorem columnSupports_exact (m : Mat K) (j : Nat) :
    m.columnSupports.getD j (List.range m.rows) = List.range m.rows := by
  by_cases hj : j < m.cols <;> simp [columnSupports, support_exact, hj]

theorem mul_exact {a b : Mat K} (h : a.cols = b.rows) :
    ∃ m, a.mul b = some m ∧ m.dims = (a.rows, b.cols) ∧
      m.toLinear = a.toLinear * b.toLinear := by
  have hprod : a.toLinear * b.toLinear = .ofEntries a.rows b.cols fun i j =>
      ∑ k ∈ range a.cols, a.entry i k * b.entry k j := by
    rw [toLinear, toLinear, ← h, Linear.ofEntries_mul]
  rw [hprod]
  by_cases hempty : a.rows = 0 ∨ b.cols = 0
  · refine ⟨ofFn a.rows b.cols fun _ _ => 0, by simp [mul, h, hempty], rfl, ?_⟩
    rw [toLinear_ofFn]
    apply Linear.ofEntries_congr
    intro i j hi hj
    omega
  · refine ⟨_, by
      rw [mul, if_pos ⟨h, rfl⟩, if_neg hempty], rfl, ?_⟩
    rw [toLinear_tabulate]
    apply Linear.ofEntries_congr
    intro i j _ _
    simp only [isFinite_exact, Bool.and_self, if_true, rowSupports_exact]
    rw [h, columnSupports_exact, commonIndices_self, productTotal_range]

theorem mulColumn_exact {a : Mat K} {p : Array K} (h : a.cols = p.size) :
    ∃ m, a.mulColumn p = some m ∧ m.dims = (a.rows, 1) ∧
      m.toLinear = a.toLinear * (ofColumn p).toLinear := by
  refine ⟨_, by rw [mulColumn, if_pos ⟨h, rfl⟩], rfl, ?_⟩
  rw [toLinear_ofFn, ofColumn, toLinear_ofFn, toLinear, ← h, Linear.ofEntries_mul]
  apply Linear.ofEntries_congr
  intro i j _ _
  split
  · exact laneTotal_eq_sum _ _
  · exact total_eq_sum _ _

theorem repeated_of_lt {n i : Nat} (h : i < n) : repeated n i = i := by
  unfold repeated
  split <;> omega

theorem hadamard_column {a : Mat K} {p : Array K} (h : p.size = a.rows) :
    ∃ m, a.hadamard (ofColumn p) = some m ∧ m.dims = a.dims ∧
      m.toLinear = .ofEntries a.rows a.cols fun i j => p.getD i 0 * a.entry i j := by
  obtain ⟨o, ho⟩ := hadamard_eq (a := a) (b := ofColumn p)
    (by rw [ofColumn, rows_ofFn, h, commonLength_self]) (commonLength_one _)
  refine ⟨_, ho, rfl, ?_⟩
  rw [toLinear_tabulate]
  apply Linear.ofEntries_congr
  intro i j hi hj
  have hcol : (ofColumn p).entry (repeated (ofColumn p).rows i) (repeated 1 j) = p.getD i 0 := by
    rw [ofColumn, rows_ofFn, h, repeated_of_lt hi]
    exact entry_ofFn _ _ _ hi Nat.one_pos
  rw [repeated_of_lt hi, repeated_of_lt hj, mul_comm]
  exact congrArg (· * _) hcol

theorem hadamard_row {a : Mat K} {p : Array K} (h : p.size = a.cols) :
    ∃ m, a.hadamard (ofRow p) = some m ∧ m.dims = a.dims ∧
      m.toLinear = .ofEntries a.rows a.cols fun i j => a.entry i j * p.getD j 0 := by
  obtain ⟨o, ho⟩ := hadamard_eq (a := a) (b := ofRow p) (commonLength_one _)
    (by rw [ofRow, cols_tabulate, h, commonLength_self])
  refine ⟨_, ho, rfl, ?_⟩
  rw [toLinear_tabulate]
  apply Linear.ofEntries_congr
  intro i j hi hj
  have hrow : (ofRow p).entry (repeated 1 i) (repeated (ofRow p).cols j) = p.getD j 0 := by
    rw [ofRow, cols_tabulate, h, repeated_of_lt hj]
    exact entry_tabulate _ _ _ _ Nat.one_pos hj
  rw [repeated_of_lt hi, repeated_of_lt hj]
  exact congrArg (_ * ·) hrow

theorem accumulate_exact {a b : Mat K} (h : b.dims = a.dims) :
    ∃ m, a.accumulate b = some m ∧ m.dims = a.dims ∧
      m.toLinear = a.toLinear + b.toLinear := by
  obtain ⟨hr, hc⟩ := Prod.ext_iff.mp h
  simp only [dims] at hr hc
  have hsum : a.accumulate b = some (tabulate a.order a.rows a.cols fun i j =>
      a.entry i j +
        b.entry (if b.rows = a.rows then i else 0) (if b.cols = a.cols then j else 0)) :=
    if_pos ⟨.inl hr, .inl hc⟩
  refine ⟨_, hsum, rfl, ?_⟩
  rw [toLinear_tabulate, toLinear, toLinear, hr, hc, Linear.ofEntries_add]
  simp

end Mat

namespace Jacobian

def toLinear (j : Jacobian K) (n : Nat) : Linear K := (j.toMat n).toLinear

theorem dims_toMat {j : Jacobian K} {r c : Nat} (h : j.Fits r c) : (j.toMat c).dims = (r, c) := by
  cases j with
  | scale _ => exact congrArg (·, c) (Eq.symm h)
  | diagonal _ => exact congrArg₂ Prod.mk h.1 h.2
  | column _ => exact congrArg₂ Prod.mk h.1 h.2.symm
  | row _ => exact congrArg₂ Prod.mk h.1.symm h.2
  | dense _ => exact congrArg₂ Prod.mk h.1 h.2

end Jacobian

namespace Mat

theorem pushThrough_exact {j : Jacobian K} {t : Mat K} {r : Nat} (h : j.Fits r t.rows) :
    ∃ m, pushThrough j t = some m ∧ m.dims = (r, t.cols) ∧
      m.toLinear = j.toLinear t.rows * t.toLinear := by
  have hdims := Jacobian.dims_toMat h
  cases j with
  | scale c =>
    obtain rfl : r = t.rows := h
    refine ⟨t.map (· * c), rfl, rfl, ?_⟩
    rw [Mat.map, toLinear_tabulate, Jacobian.toLinear, Jacobian.toMat, toLinear_ofFn, toLinear,
      Linear.ofEntries_mul]
    apply Linear.ofEntries_congr
    intro i j hi _
    simp [hi, mul_comm]
  | diagonal p =>
    obtain ⟨m, hm, hd, hlin⟩ := hadamard_column (a := t) h.2
    refine ⟨m, hm, by rw [hd, ← h.1, h.2]; rfl, ?_⟩
    rw [hlin, Jacobian.toLinear, Jacobian.toMat, toLinear_ofFn, toLinear, h.2,
      Linear.ofEntries_mul]
    apply Linear.ofEntries_congr
    intro i j hi _
    simp [hi]
  | column p =>
    obtain ⟨m, hm, hd, hlin⟩ := mul_exact (a := ofColumn p) (b := t) h.2.symm
    exact ⟨m, hm, by rw [hd]; exact congrArg (·, t.cols) h.1, hlin⟩
  | row p =>
    obtain ⟨m, hm, hd, hlin⟩ := mul_exact (a := ofRow p) (b := t) h.2
    exact ⟨m, hm, by rw [hd]; exact congrArg (·, t.cols) h.1.symm, hlin⟩
  | dense j =>
    obtain ⟨m, hm, hd, hlin⟩ := mul_exact (a := j) (b := t) h.2
    exact ⟨m, hm, by rw [hd, h.1], hlin⟩

theorem pullThrough_exact {j : Jacobian K} {g : Mat K} {c : Nat} (h : j.Fits g.cols c) :
    ∃ m, pullThrough g j = some m ∧ m.dims = (g.rows, c) ∧
      m.toLinear = g.toLinear * j.toLinear c := by
  cases j with
  | scale x =>
    obtain rfl : g.cols = c := h
    refine ⟨g.map (· * x), rfl, rfl, ?_⟩
    rw [Mat.map, toLinear_tabulate, Jacobian.toLinear, Jacobian.toMat, toLinear_ofFn, toLinear,
      Linear.ofEntries_mul]
    apply Linear.ofEntries_congr
    intro i j _ hj
    simp [hj]
  | diagonal p =>
    obtain ⟨m, hm, hd, hlin⟩ := hadamard_row (a := g) h.1
    refine ⟨m, hm, by rw [hd, dims, ← h.1, h.2], ?_⟩
    rw [hlin, Jacobian.toLinear, Jacobian.toMat, toLinear_ofFn, toLinear, h.1,
      Linear.ofEntries_mul]
    apply Linear.ofEntries_congr
    intro i j _ hj
    simp [hj]
  | column p =>
    obtain ⟨m, hm, hd, hlin⟩ := mulColumn_exact (a := g) (p := p) h.1.symm
    exact ⟨m, hm, by rw [hd, h.2], hlin⟩
  | row p =>
    obtain ⟨m, hm, hd, hlin⟩ := mul_exact (a := g) (b := ofRow p) h.1
    exact ⟨m, hm, by rw [hd]; exact congrArg (g.rows, ·) h.2, hlin⟩
  | dense j =>
    obtain ⟨m, hm, hd, hlin⟩ := mul_exact (a := g) (b := j) h.1.symm
    exact ⟨m, hm, by rw [hd, h.2], hlin⟩

end Mat

end
end GradientGraph
