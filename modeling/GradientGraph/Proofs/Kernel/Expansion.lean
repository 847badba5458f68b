import GradientGraph.Proofs.Kernel.Flat
import GradientGraph.Proofs.Kernel.Scatter

/-!
# Products to the second order

A product adds up products of an element of each operand, so it is linear in either. When
both operands move, it moves by its two Jacobians and by the product of the displacements.
The linear part is read off dual numbers, over which a product adds up the same terms.
-/

set_option autoImplicit false

namespace GradientGraph

open Finset Matrix TrivSqZeroExt DualNumber

theorem Value.snd_entry_dual_entry {K : Type} [CommRing K] {x dx : Value K}
    (hdx : dx.shape = x.shape) (i : Nat) : ((x.dual dx.entry).entry i).snd = dx.entry i := by
  by_cases hi : i < x.size
  · exact snd_entry_dual x dx.entry hi
  · have hout : ¬i < dx.size := by rwa [size, hdx]
    rw [(x.dual dx.entry).entry_outside hi, dx.entry_outside hout, snd_zero]

/-- The terms of a product: how many there are for an element, and for term `l` of element
`i` which element of either operand is its factor. -/
structure Terms where
  count : Nat
  left : (i l : Nat) → Nat
  right : (i l : Nat) → Nat

namespace BinaryKernel

/-- The terms that the kernel adds up for operands of the shapes, if it is a product. -/
def terms : BinaryKernel → (l r : Shape) → Terms
  | .dot, .vector n, .vector _ => ⟨n, fun _ l => l, fun _ l => l⟩
  | .outer, .vector m, .vector _ => ⟨1, fun i _ => i % m, fun i _ => i / m⟩
  | .matmul, .matrix m s, .vector _ => ⟨s, fun i l => i + m * l, fun _ l => l⟩
  | .matmul, .matrix m s, .matrix _ _ =>
    ⟨s, fun i l => i % m + m * l, fun i l => l + s * (i / m)⟩
  | _, _, _ => ⟨0, fun _ _ => 0, fun _ _ => 0⟩

variable {K : Type} [CommRing K] {k : BinaryKernel}

/-- What the terms of the kernel add up to. -/
def bilinear (k : BinaryKernel) (l r : Shape) (f g : Nat → K) (i : Nat) : K :=
  ∑ b ∈ range (k.terms l r).count, f ((k.terms l r).left i b) * g ((k.terms l r).right i b)

theorem bilinear_add (l r : Shape) (f f' g g' : Nat → K) (i : Nat) :
    k.bilinear l r (fun a => f a + f' a) (fun b => g b + g' b) i =
      k.bilinear l r f g i + (k.bilinear l r f' g i + k.bilinear l r f g' i) +
        k.bilinear l r f' g' i := by
  simp only [bilinear, ← sum_add_distrib]
  refine sum_congr rfl fun b _ => ?_
  ring

variable [Calculus K] {x y v dx dy : Value K} {s : Shape}

theorem entry_product (hk : k.IsProduct) (h : k.eval x y = some v) {i : Nat} (hi : i < v.size) :
    v.entry i = k.bilinear x.shape y.shape x.entry y.entry i := by
  cases k with
  | cwise op => exact hk.elim
  | broadcast op => exact hk.elim
  | broadcastLeft op => exact hk.elim
  | dot =>
    obtain ⟨n, hx, hy, -⟩ := shape_of_eval h
    simp only [eval, hx, hy, if_true] at h
    cases h
    obtain rfl : i = 0 := Nat.lt_one_iff.mp hi
    rw [hx, hy]
    exact laneTotal_eq_sum _ _
  | outer =>
    obtain ⟨m, n, hx, hy, -⟩ := shape_of_eval h
    simp only [eval, hx, hy, plainCapacity_fits, if_true] at h
    cases h
    rw [hx, hy, bilinear, Value.matrix, Value.entry_ofFn (.matrix m n) _ hi]
    exact (sum_range_one fun _ => x.entry (i % m) * y.entry (i / m)).symm
  | matmul =>
    obtain ⟨m, s, hx, ⟨hy, -⟩ | ⟨n, hy, -⟩⟩ := shape_of_eval h
    · simp only [eval, hx, hy, plainCapacity_fits, and_self, if_true] at h
      cases h
      rw [hx, hy, Value.entry_ofFn (.vector m) _ hi, laneTotal_eq_sum]
      rfl
    · simp only [eval, hx, hy, plainCapacity_fits, and_self, if_true, productTotal_range] at h
      cases h
      rw [hx, hy, Value.matrix, Value.entry_ofFn (.matrix m n) _ hi]
      rfl

/-- The Jacobians of a product add up the terms in which one operand is displaced. -/
theorem product_moves (hk : k.IsProduct) (h : k.eval x y = some v) {i j : Jacobian K}
    (hi : k.partialLeft x y = some i) (hj : k.partialRight x y = some j)
    (hdx : dx.shape = x.shape) (hdy : dy.shape = y.shape) {l : Nat} (hl : l < v.size) :
    i.timesColumn x.size dx.entry l + j.timesColumn y.size dy.entry l =
      k.bilinear x.shape y.shape dx.entry y.entry l +
        k.bilinear x.shape y.shape x.entry dy.entry l := by
  obtain ⟨i', j', hi', hj', hdual⟩ := eval_dual h dx.entry dy.entry
  obtain rfl := Option.some.inj (hi.symm.trans hi')
  obtain rfl := Option.some.inj (hj.symm.trans hj')
  have hmoved := congrArg snd (entry_product hk hdual hl)
  rw [Value.snd_entry_dual v _ hl, Value.shape_dual, Value.shape_dual] at hmoved
  simp only [bilinear, snd_sum, DualNumber.snd_mul, Value.fst_entry_dual,
    Value.snd_entry_dual_entry hdx, Value.snd_entry_dual_entry hdy, sum_add_distrib] at hmoved
  rw [hmoved, add_comm]
  rfl

theorem exists_eval (h : k.Makes x.shape y.shape s) :
    ∃ v, k.eval x y = some v ∧ v.shape = s := by
  obtain ⟨v, hv⟩ := (eval_of_makes h).total roomy_plain
  exact ⟨v, hv, (eval_of_makes h).sound v hv⟩

/-- Products move by their Jacobians and by the product of the displacements, whatever the
dimensions of the operands, if these fit. The Jacobians can be written place by place. -/
theorem products_expand (hk : k.IsProduct) (h : k.compatible x.shape y.shape) :
    ∃ s v i j, ∃ (A : Matrix (Fin s.size) (Fin x.size) K)
      (B : Matrix (Fin s.size) (Fin y.size) K),
      k.eval x y = some v ∧ v.shape = s ∧
      k.partialLeft x y = some i ∧ k.scatterLeft? x y = some i ∧ i.Denotes A ∧
      k.partialRight x y = some j ∧ k.scatterRight? x y = some j ∧ j.Denotes B ∧
      ∀ dx dy x' y', x.zipWith (· + ·) dx = some x' → y.zipWith (· + ·) dy = some y' →
        ∃ u w, k.eval x' y' = some u ∧ k.eval dx dy = some w ∧ u.shape = s ∧ w.shape = s ∧
          u.flat s.size = v.flat s.size + A *ᵥ dx.flat x.size + B *ᵥ dy.flat y.size +
            w.flat s.size := by
  obtain ⟨s, hmakes⟩ := compatible_iff.mp h
  obtain ⟨v, hv, hvs⟩ := exists_eval hmakes
  obtain ⟨i, hi, hifits⟩ := partialLeft_fits hmakes
  obtain ⟨j, hj, hjfits⟩ := partialRight_fits hmakes
  obtain ⟨A, hA⟩ := Jacobian.exists_denotes hifits
  obtain ⟨B, hB⟩ := Jacobian.exists_denotes hjfits
  refine ⟨s, v, i, j, A, B, hv, hvs, hi, (scatterLeft?_eq hk hmakes).trans hi, hA, hj,
    (scatterRight?_eq hk hmakes).trans hj, hB, fun dx dy x' y' hx' hy' => ?_⟩
  obtain ⟨hdx, hxs, hxe⟩ := Value.entry_sum hx'
  obtain ⟨hdy, hys, hye⟩ := Value.entry_sum hy'
  obtain ⟨u, hu, hus⟩ := exists_eval (k := k) (x := x') (y := y') (by rwa [hxs, hys])
  obtain ⟨w, hw, hws⟩ := exists_eval (k := k) (x := dx) (y := dy) (by rwa [hdx, hdy])
  refine ⟨u, w, hu, hw, hus, hws, funext fun l => ?_⟩
  have hin {z : Value K} (hz : z.shape = s) : l < z.size := by
    rw [Value.size, hz]
    exact l.isLt
  have hleft : (A *ᵥ dx.flat x.size) l = i.timesColumn x.size dx.entry l :=
    (congrArg (fun t => (A *ᵥ t) l) (Value.flat_eq hdx fun _ => rfl)).trans (hA.mulVec dx.entry l)
  have hright : (B *ᵥ dy.flat y.size) l = j.timesColumn y.size dy.entry l :=
    (congrArg (fun t => (B *ᵥ t) l) (Value.flat_eq hdy fun _ => rfl)).trans (hB.mulVec dy.entry l)
  calc u.flat s.size l
      = k.bilinear x.shape y.shape (fun a => x.entry a + dx.entry a)
          (fun b => y.entry b + dy.entry b) l := by
        rw [Value.flat_of_shape u hus, entry_product hk hu (hin hus), hxs, hys,
          funext hxe, funext hye]
    _ = v.flat s.size l + (i.timesColumn x.size dx.entry l + j.timesColumn y.size dy.entry l) +
          w.flat s.size l := by
        rw [bilinear_add, product_moves hk hv hi hj hdx hdy (hin hvs), Value.flat_of_shape v hvs,
          Value.flat_of_shape w hws, entry_product hk hv (hin hvs), entry_product hk hw (hin hws),
          hdx, hdy]
    _ = _ := by rw [← hleft, ← hright, ← add_assoc]; rfl

/-- A matrix of two rows and three columns times one of three rows and two columns, when each
is displaced by a matrix of ones. -/
theorem products_expand_matrices :
    let x : Value ℝ := .matrix 2 3 fun a b => a + 2 * b
    let y : Value ℝ := .matrix 3 2 fun b c => b * c
    let dx : Value ℝ := .matrix 2 3 fun _ _ => 1
    let dy : Value ℝ := .matrix 3 2 fun _ _ => 1
    matmul.IsProduct ∧ matmul.compatible x.shape y.shape = true ∧
    ∃ v i j x' y' u w, ∃ A B : Matrix (Fin 4) (Fin 6) ℝ,
      x.zipWith (· + ·) dx = some x' ∧ y.zipWith (· + ·) dy = some y' ∧
      matmul.eval x y = some v ∧ matmul.eval x' y' = some u ∧ matmul.eval dx dy = some w ∧
      matmul.partialLeft x y = some i ∧ i.Denotes A ∧
      matmul.partialRight x y = some j ∧ j.Denotes B ∧
      u.flat 4 = v.flat 4 + A *ᵥ dx.flat 6 + B *ᵥ dy.flat 6 + w.flat 4 := by
  intro x y dx dy
  obtain ⟨s, v, i, j, A, B, hv, hvs, hi, -, hA, hj, -, hB, hmoves⟩ :=
    products_expand (k := matmul) (x := x) (y := y) trivial rfl
  obtain ⟨u, w, hu, hw, -, -, hsum⟩ := hmoves dx dy _ _
    (Value.zipWith_of_shape _ rfl) (Value.zipWith_of_shape _ rfl)
  obtain rfl : s = .matrix 2 2 := by
    obtain ⟨m, n, hx, ⟨hy, -⟩ | ⟨l, hy, hs⟩⟩ := shape_of_eval hv
    · cases hy
    · cases hx
      cases hy
      exact hvs.symm.trans hs
  exact ⟨trivial, rfl, v, i, j, _, _, u, w, A, B, Value.zipWith_of_shape _ rfl,
    Value.zipWith_of_shape _ rfl, hv, hu, hw, hi, hA, hj, hB, hsum⟩

end BinaryKernel

end GradientGraph
