import GradientGraph.Proofs.Algebra.Container
import Mathlib.Algebra.BigOperators.Fin
import Mathlib.LinearAlgebra.Matrix.Notation
import Mathlib.LinearAlgebra.Matrix.RowCol

/-!
# Dense matrices

The matrix that a derivative lists, and the one that a form of a Jacobian stands for, as
matrices of the usual algebra. Over exact scalars a product with a Jacobian in any form is
the product with its matrix, on either side and whatever the other dimension.
-/

set_option autoImplicit false

namespace GradientGraph

variable {K : Type}

structure Mat.Denotes [Zero K] (m : Mat K) {r c : Nat} (A : Matrix (Fin r) (Fin c) K) : Prop where
  dims : m.dims = (r, c)
  entry : ∀ (i : Fin r) (j : Fin c), m.entry i j = A i j

/-- Whether `A` is the matrix that the form stands for: a multiple of the identity of any
size, a diagonal, a column, a row, or the entries listed. -/
inductive Jacobian.Denotes [Zero K] :
    Jacobian K → {r c : Nat} → Matrix (Fin r) (Fin c) K → Prop
  | scale (n : Nat) (c : K) : Denotes (.scale c) (.diagonal fun _ : Fin n => c)
  | diagonal (p : Array K) : Denotes (.diagonal p) (.diagonal fun i : Fin p.size => p[i])
  | column (p : Array K) :
      Denotes (.column p) (.replicateCol (Fin 1) fun i : Fin p.size => p[i])
  | row (p : Array K) : Denotes (.row p) (.replicateRow (Fin 1) fun i : Fin p.size => p[i])
  | dense {m : Mat K} {r c : Nat} {A : Matrix (Fin r) (Fin c) K} :
      m.Denotes A → Denotes (.dense m) A

section Forms

variable [Zero K] {m : Mat K} {j : Jacobian K} {r c : Nat} {A : Matrix (Fin r) (Fin c) K}

theorem Mat.denotes_tabulate (o : Order) (r c : Nat) (f : Nat → Nat → K) :
    (Mat.tabulate o r c f).Denotes (.of fun (i : Fin r) (j : Fin c) => f i j) :=
  ⟨rfl, fun i j => entry_tabulate o r c f i.isLt j.isLt⟩

theorem Mat.denotes_ofFn (r c : Nat) (f : Nat → Nat → K) :
    (Mat.ofFn r c f).Denotes (.of fun (i : Fin r) (j : Fin c) => f i j) :=
  denotes_tabulate .byRow r c f

theorem Mat.Denotes.congr {B : Matrix (Fin r) (Fin c) K} (h : m.Denotes A) (hAB : A = B) :
    m.Denotes B := hAB ▸ h

namespace Jacobian

theorem Denotes.fits (h : j.Denotes A) : j.Fits r c := by
  cases h with
  | scale => exact rfl
  | diagonal => exact ⟨rfl, rfl⟩
  | column => exact ⟨rfl, rfl⟩
  | row => exact ⟨rfl, rfl⟩
  | dense h => exact Prod.ext_iff.mp h.dims

theorem exists_denotes (h : j.Fits r c) : ∃ A : Matrix (Fin r) (Fin c) K, j.Denotes A := by
  cases j with
  | scale x =>
    obtain rfl : r = c := h
    exact ⟨_, .scale r x⟩
  | diagonal p =>
    obtain ⟨rfl, hp⟩ := h
    subst hp
    exact ⟨_, .diagonal p⟩
  | column p =>
    obtain ⟨rfl, rfl⟩ := h
    exact ⟨_, .column p⟩
  | row p =>
    obtain ⟨rfl, rfl⟩ := h
    exact ⟨_, .row p⟩
  | dense m => exact ⟨.of fun i k => m.entry i k, .dense ⟨Prod.ext h.1 h.2, fun _ _ => rfl⟩⟩

theorem Denotes.toMat (h : j.Denotes A) : (j.toMat c).Denotes A := by
  cases h with
  | scale n x =>
    refine ⟨rfl, fun i k => ?_⟩
    rw [Jacobian.toMat, Mat.entry_ofFn _ _ _ i.isLt k.isLt, Matrix.diagonal_apply]
    simp only [Fin.ext_iff]
  | diagonal p =>
    refine ⟨rfl, fun i k => ?_⟩
    rw [Jacobian.toMat, Mat.entry_ofFn _ _ _ i.isLt k.isLt, Matrix.diagonal_apply]
    simp [Fin.ext_iff]
  | column p =>
    refine ⟨rfl, fun i k => ?_⟩
    rw [Jacobian.toMat, Mat.ofColumn, Mat.entry_ofFn _ _ _ i.isLt k.isLt]
    simp
  | row p =>
    refine ⟨rfl, fun i k => ?_⟩
    rw [Jacobian.toMat, Mat.ofRow, Mat.entry_tabulate _ _ _ _ i.isLt k.isLt]
    simp
  | dense h => exact h

end Jacobian

end Forms

variable [CommRing K]

/-- What stands for a product of two linear maps lists the product of their matrices. -/
theorem Mat.Denotes.mul {a b p : Mat K} {r c k : Nat} {A : Matrix (Fin r) (Fin c) K}
    {B : Matrix (Fin c) (Fin k) K} (ha : a.Denotes A) (hb : b.Denotes B)
    (hdims : p.dims = (r, k)) (hp : p.toLinear = a.toLinear * b.toLinear) :
    p.Denotes (A * B) := by
  obtain ⟨rfl, rfl⟩ : a.rows = r ∧ a.cols = c := Prod.ext_iff.mp ha.dims
  obtain ⟨hbr, rfl⟩ : b.rows = a.cols ∧ b.cols = k := Prod.ext_iff.mp hb.dims
  obtain ⟨hpr, hpc⟩ : p.rows = a.rows ∧ p.cols = b.cols := Prod.ext_iff.mp hdims
  refine ⟨hdims, fun i j => ?_⟩
  have hcoeff := congrArg (fun L : Linear K => L.coeff i j) hp
  simp only [Mat.toLinear, hbr, hpr, hpc, Linear.ofEntries_mul, Linear.coeff_ofEntries, i.isLt,
    j.isLt, and_self, if_true] at hcoeff
  rw [hcoeff, Finset.sum_range, Matrix.mul_apply]
  exact Finset.sum_congr rfl fun l _ => congrArg₂ (· * ·) (ha.entry i l) (hb.entry l j)

theorem Mat.Denotes.product {a b : Mat K} {r c k : Nat} {A : Matrix (Fin r) (Fin c) K}
    {B : Matrix (Fin c) (Fin k) K} (ha : a.Denotes A) (hb : b.Denotes B) :
    ∃ p, a.mul b = some p ∧ p.Denotes (A * B) := by
  obtain ⟨rfl, rfl⟩ : a.rows = r ∧ a.cols = c := Prod.ext_iff.mp ha.dims
  obtain ⟨hbr, rfl⟩ : b.rows = a.cols ∧ b.cols = k := Prod.ext_iff.mp hb.dims
  obtain ⟨p, hp, hdims, hlin⟩ := Mat.mul_exact hbr.symm
  exact ⟨p, hp, ha.mul hb hdims hlin⟩

namespace Jacobian

variable {j : Jacobian K} {r c : Nat} {J : Matrix (Fin r) (Fin c) K}

theorem Denotes.pushThrough (h : j.Denotes J) {k : Nat} {t : Mat K}
    {T : Matrix (Fin c) (Fin k) K} (ht : t.Denotes T) :
    ∃ p, Mat.pushThrough j t = some p ∧ p.Denotes (J * T) := by
  obtain ⟨rfl, rfl⟩ : t.rows = c ∧ t.cols = k := Prod.ext_iff.mp ht.dims
  obtain ⟨p, hp, hdims, hlin⟩ := Mat.pushThrough_exact h.fits
  exact ⟨p, hp, h.toMat.mul ht hdims hlin⟩

theorem Denotes.pullThrough (h : j.Denotes J) {m : Nat} {g : Mat K}
    {G : Matrix (Fin m) (Fin r) K} (hg : g.Denotes G) :
    ∃ q, Mat.pullThrough g j = some q ∧ q.Denotes (G * J) := by
  obtain ⟨rfl, rfl⟩ : g.rows = m ∧ g.cols = r := Prod.ext_iff.mp hg.dims
  obtain ⟨q, hq, hdims, hlin⟩ := Mat.pullThrough_exact h.fits
  exact ⟨q, hq, hg.mul h.toMat hdims hlin⟩

theorem Denotes.head {J : Matrix (Fin 1) (Fin 1) K} (h : j.Denotes J) :
    j.head? = some (J 0 0) := by
  obtain ⟨x, hx, hlin⟩ := head_exact h.fits
  have hcoeff := congrArg (fun L : Linear K => L.coeff 0 0) hlin
  obtain ⟨hr, hc⟩ : (j.toMat 1).rows = 1 ∧ (j.toMat 1).cols = 1 :=
    Prod.ext_iff.mp h.toMat.dims
  simp only [toLinear, Mat.toLinear, hr, hc, Linear.coeff_ofEntries, Nat.one_pos, and_self,
    if_true] at hcoeff
  rw [hx, ← hcoeff]
  exact congrArg some (h.toMat.entry 0 0)

/-- A product with a Jacobian in any form is the product with its dense matrix, with a
tangent on its right as with a gradient on its left. So it does not matter which of the two
is multiplied first. Scalars do the same where the Jacobian has one row and one column. -/
theorem structured_products :
    (∀ {r c k m : Nat} {j : Jacobian K} {J : Matrix (Fin r) (Fin c) K} {t g : Mat K}
      {T : Matrix (Fin c) (Fin k) K} {G : Matrix (Fin m) (Fin r) K},
      j.Denotes J → t.Denotes T → g.Denotes G → ∃ p q a b,
        Mat.pushThrough j t = some p ∧ p.Denotes (J * T) ∧
        Mat.pullThrough g j = some q ∧ q.Denotes (G * J) ∧
        q.mul t = some a ∧ g.mul p = some b ∧
        a.Denotes (G * J * T) ∧ b.Denotes (G * J * T)) ∧
    ∀ {j : Jacobian K} {J T G : Matrix (Fin 1) (Fin 1) K}, j.Denotes J →
      Differential.pushThrough j (T 0 0) = some ((J * T) 0 0) ∧
      Differential.pullThrough (G 0 0) j = some ((G * J) 0 0) := by
  constructor
  · intro r c k m j J t g T G hj ht hg
    obtain ⟨p, hp, hpJ⟩ := hj.pushThrough ht
    obtain ⟨q, hq, hqJ⟩ := hj.pullThrough hg
    obtain ⟨a, ha, haT⟩ := hqJ.product ht
    obtain ⟨b, hb, hbG⟩ := hg.product hpJ
    rw [← Matrix.mul_assoc] at hbG
    exact ⟨p, q, a, b, hp, hpJ, hq, hqJ, ha, hb, haT, hbG⟩
  · intro j J T G hj
    have hpush : Differential.pushThrough j (T 0 0) = some (J 0 0 * T 0 0) :=
      congrArg (Option.map (· * T 0 0)) hj.head
    have hpull : Differential.pullThrough (G 0 0) j = some (G 0 0 * J 0 0) :=
      congrArg (Option.map (G 0 0 * ·)) hj.head
    simp [hpush, hpull, Matrix.mul_apply]

/-- A column of three, between a tangent of two columns and a gradient of two rows, and a
row of one between scalars. -/
theorem structured_products_column :
    (∃ p q a b : Mat ℤ,
      Mat.pushThrough (.column #[1, 2, 3]) (.ofFn 1 2 fun _ l => (l : ℤ) + 1) = some p ∧
      p.Denotes !![1, 2; 2, 4; 3, 6] ∧
      Mat.pullThrough (.ofFn 2 3 fun i _ => (i : ℤ) + 1) (.column #[1, 2, 3]) = some q ∧
      q.Denotes !![6; 12] ∧
      q.mul (.ofFn 1 2 fun _ l => (l : ℤ) + 1) = some a ∧
      (Mat.ofFn 2 3 fun i _ => (i : ℤ) + 1).mul p = some b ∧
      a.Denotes !![6, 12; 12, 24] ∧ b.Denotes !![6, 12; 12, 24]) ∧
    Differential.pushThrough (.row #[4]) (2 : ℤ) = some 8 ∧
    Differential.pullThrough (2 : ℤ) (.row #[4]) = some 8 := by
  constructor
  · obtain ⟨p, q, a, b, hp, hpJ, hq, hqJ, ha, hb, haT, hbT⟩ :=
      structured_products.1 (.column (#[1, 2, 3] : Array ℤ))
        (Mat.denotes_ofFn 1 2 fun _ l => (l : ℤ) + 1)
        (Mat.denotes_ofFn 2 3 fun i _ => (i : ℤ) + 1)
    exact ⟨p, q, a, b, hp, hpJ.congr (by decide), hq, hqJ.congr (by decide), ha, hb,
      haT.congr (by decide), hbT.congr (by decide)⟩
  · obtain ⟨hpush, hpull⟩ :=
      structured_products.2 (.row (#[4] : Array ℤ)) (T := !![2]) (G := !![2])
    exact ⟨hpush.trans (congrArg some (by decide)), hpull.trans (congrArg some (by decide))⟩

end Jacobian

end GradientGraph
