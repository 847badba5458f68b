import GradientGraph.Host.Parameter
import GradientGraph.Proofs.Algebra.Dense
import GradientGraph.Proofs.Dual.Kernel

/-!
# Flattened arrays

An array that is read column after column, whatever the order in which it lists its elements.
Values number their elements in this order, and so do the rows and columns of Jacobians.
-/

set_option autoImplicit false

namespace GradientGraph

variable {K : Type}

section Reading

variable [Zero K]

/-- Element `i` of the array, read column after column. -/
def Tensor.flat (a : Tensor K) (i : Nat) : K :=
  match a.dims with
  | [r, c] => a.entries.getD (i % r * c + i / r) 0
  | _ => a.entries.getD i 0

namespace Value

def flat (v : Value K) (n : Nat) : Fin n → K := fun i => v.toTensor.flat i

theorem toTensor_flat (v : Value K) {i : Nat} (hi : i < v.size) :
    v.toTensor.flat i = v.entry i := by
  obtain ⟨s, xs, hx⟩ := v
  cases s with
  | scalar => rfl
  | vector n => rfl
  | matrix r c =>
    have hi : i < r * c := hi
    have hr : 0 < r := Nat.pos_of_lt_mul_right hi
    have hcol : i / r < c := Nat.div_lt_of_lt_mul hi
    have hrow : i % r < r := Nat.mod_lt i hr
    have hplace : c * (i % r) + i / r < r * c := by
      calc c * (i % r) + i / r < c * (i % r) + c := Nat.add_lt_add_left hcol _
        _ = c * (i % r + 1) := (Nat.mul_succ _ _).symm
        _ ≤ c * r := Nat.mul_le_mul_left c hrow
        _ = r * c := Nat.mul_comm c r
    simp only [toTensor, Tensor.flat, Nat.mul_comm (i % r)]
    rw [Array.getD_eq_getD_getElem?, Array.getElem?_ofFn, dif_pos hplace, Option.getD_some, cell,
      block_div hcol, block_mod hcol, Nat.mod_add_div]

theorem flat_apply (v : Value K) (i : Fin v.size) : v.flat v.size i = v.entry i :=
  v.toTensor_flat i.isLt

theorem flat_of_shape (v : Value K) {s : Shape} (hs : v.shape = s) (i : Fin s.size) :
    v.flat s.size i = v.entry i := by
  subst hs
  exact v.flat_apply i

theorem flat_eq {v : Value K} {s : Shape} {f : Fin s.size → K} (hs : v.shape = s)
    (hf : ∀ i : Fin s.size, v.entry i = f i) : v.flat s.size = f :=
  funext fun i => (v.flat_of_shape hs i).trans (hf i)

theorem flat_of_scalar (v : Value K) (hs : v.shape = .scalar) : v.flat 1 0 = v.entry 0 :=
  v.flat_of_shape hs (0 : Fin 1)

end Value

end Reading

section Sums

variable [CommRing K] {x dx x' : Value K}

theorem Value.entry_sum (hsum : x.zipWith (· + ·) dx = some x') :
    dx.shape = x.shape ∧ x'.shape = x.shape ∧ ∀ i, x'.entry i = x.entry i + dx.entry i := by
  obtain ⟨hdx, hx'⟩ := shape_of_zipWith hsum
  rw [zipWith_of_shape _ hdx] at hsum
  cases hsum
  refine ⟨hdx.symm, rfl, fun i => ?_⟩
  by_cases hi : i < x.size
  · exact entry_ofFn x.shape _ hi
  · have hout : ¬i < dx.size := by rwa [size, ← hdx]
    rw [entry_outside (ofFn x.shape _) hi, entry_outside x hi, entry_outside dx hout, add_zero]

theorem Jacobian.Denotes.mulVec {j : Jacobian K} {r c : Nat} {A : Matrix (Fin r) (Fin c) K}
    (hj : j.Denotes A) (t : Nat → K) (i : Fin r) :
    A.mulVec (fun l => t l) i = j.timesColumn c t i := by
  rw [Jacobian.timesColumn, Finset.sum_range, Matrix.mulVec, dotProduct]
  apply Finset.sum_congr rfl
  intro l _
  rw [hj.toMat.entry i l]

theorem Jacobian.exists_row (n : Nat) (f : Nat → K) :
    ∃ A : Matrix (Fin 1) (Fin n) K, (row (Array.ofFn fun i : Fin n => f i)).Denotes A ∧
      ∀ t : Nat → K, A.mulVec (fun l => t l) 0 = ∑ l ∈ Finset.range n, f l * t l := by
  obtain ⟨A, hA⟩ := Jacobian.exists_denotes
    (j := row (Array.ofFn fun i : Fin n => f i)) (r := 1) ⟨rfl, Array.size_ofFn⟩
  exact ⟨A, hA, fun t => (hA.mulVec t 0).trans (timesColumn_row_ofFn n f t)⟩

end Sums

end GradientGraph
