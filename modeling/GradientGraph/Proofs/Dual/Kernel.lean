import GradientGraph.Proofs.Algebra.KernelShape
import GradientGraph.Proofs.Dual.Number

/-!
# Kernels over dual numbers

A kernel takes a value that moves with a tangent to its value there, which moves
with the tangent times the Jacobian. The kernels compute in the ring of dual
numbers and know nothing of Jacobians.
-/

set_option autoImplicit false

namespace GradientGraph
noncomputable section

open Finset TrivSqZeroExt DualNumber

variable {K : Type} [CommRing K]

namespace Value

theorem entry_outside (v : Value K) {i : Nat} (h : ¬i < v.size) : v.entry i = 0 := by
  have hi : ¬i < v.entries.size := by rwa [v.size_entries]
  simp [entry, hi]

/-- The value, moving with the tangent `t`. -/
def dual (v : Value K) (t : Nat → K) : Value K[ε] :=
  .ofFn v.shape fun i => inl (v.entry i) + inr (t i)

@[simp] theorem shape_dual (v : Value K) (t : Nat → K) : (v.dual t).shape = v.shape := rfl

@[simp] theorem size_dual (v : Value K) (t : Nat → K) : (v.dual t).size = v.size := rfl

theorem entry_dual (v : Value K) (t : Nat → K) {i : Nat} (h : i < v.size) :
    (v.dual t).entry i = inl (v.entry i) + inr (t i) := entry_ofFn v.shape _ h

@[simp] theorem fst_entry_dual (v : Value K) (t : Nat → K) (i : Nat) :
    ((v.dual t).entry i).fst = v.entry i := by
  by_cases h : i < v.size
  · rw [entry_dual v t h, fst_add, fst_inl, fst_inr, add_zero]
  · rw [(v.dual t).entry_outside h, v.entry_outside h, fst_zero]

theorem snd_entry_dual (v : Value K) (t : Nat → K) {i : Nat} (h : i < v.size) :
    ((v.dual t).entry i).snd = t i := by
  rw [entry_dual v t h, snd_add, snd_inl, snd_inr, zero_add]

theorem eq_dual {w : Value K[ε]} {v : Value K} {t : Nat → K} (hs : w.shape = v.shape)
    (hfst : ∀ i, i < v.size → (w.entry i).fst = v.entry i)
    (hsnd : ∀ i, i < v.size → (w.entry i).snd = t i) : w = v.dual t := by
  apply ext_entry hs
  intro i hi
  rw [size, hs] at hi
  rw [entry_dual v t hi]
  ext
  · rw [hfst i hi, fst_add, fst_inl, fst_inr, add_zero]
  · rw [hsnd i hi, snd_add, snd_inl, snd_inr, zero_add]

theorem dual_congr {v : Value K} {s t : Nat → K} (h : ∀ i, i < v.size → s i = t i) :
    v.dual s = v.dual t :=
  eq_dual rfl (fun i _ => fst_entry_dual v s i) fun i hi => (snd_entry_dual v s hi).trans (h i hi)

theorem scalar_eq_dual {z : K[ε]} {y : K} {t : Nat → K} (hfst : z.fst = y)
    (hsnd : z.snd = t 0) : scalar z = (scalar y).dual t := by
  apply eq_dual rfl
  · intro i hi
    obtain rfl : i = 0 := Nat.lt_one_iff.mp hi
    exact hfst
  · intro i hi
    obtain rfl : i = 0 := Nat.lt_one_iff.mp hi
    exact hsnd

/-- Values that come from one rule, element by element, move by its derivatives. -/
theorem eq_dual_extend {w : Value K[ε]} {v : Value K} {t : Nat → K} (r : BinaryRule K)
    (a b : Nat → K[ε]) (hs : w.shape = v.shape)
    (hw : ∀ i, i < v.size → w.entry i = r.extend.eval (a i) (b i))
    (hv : ∀ i, i < v.size → v.entry i = r.eval (a i).fst (b i).fst)
    (ht : ∀ i, i < v.size → t i =
      r.dLeft (a i).fst (b i).fst * (a i).snd + r.dRight (a i).fst (b i).fst * (b i).snd) :
    w = v.dual t := by
  apply eq_dual hs
  · intro i hi
    rw [hw i hi, hv i hi, BinaryRule.fst_extend]
  · intro i hi
    rw [hw i hi, ht i hi, BinaryRule.snd_extend]

end Value

namespace Jacobian

def timesColumn (j : Jacobian K) (n : Nat) (t : Nat → K) (i : Nat) : K :=
  ∑ l ∈ range n, (j.toMat n).entry i l * t l

theorem entry_ofElements {v : Value K} {i l : Nat} (hi : i < v.size) (hl : l < v.size) :
    ((ofElements v).toMat v.size).entry i l = if i = l then v.entry i else 0 := by
  unfold ofElements
  split
  · rename_i hs
    rw [toMat, Mat.entry_ofFn _ _ _ hi hl]
    rw [Value.size_of_scalar hs] at hi
    rw [Nat.lt_one_iff.mp hi]
  · rw [toMat, Mat.entry_ofFn _ _ _ (v.size_entries ▸ hi) (v.size_entries ▸ hl)]
    rfl

theorem timesColumn_ofElements (v : Value K) (t : Nat → K) {i : Nat} (hi : i < v.size) :
    (ofElements v).timesColumn v.size t i = v.entry i * t i := by
  rw [timesColumn, sum_eq_single i]
  · rw [entry_ofElements hi hi, if_pos rfl]
  · intro l hl hli
    rw [entry_ofElements hi (mem_range.mp hl), if_neg (Ne.symm hli), zero_mul]
  · intro hn
    exact absurd (mem_range.mpr hi) hn

theorem timesColumn_column (p : Array K) (t : Nat → K) {i : Nat} (hi : i < p.size) :
    (column p).timesColumn 1 t i = p.getD i 0 * t 0 := by
  rw [timesColumn, sum_range_one, toMat, Mat.ofColumn, Mat.entry_ofFn _ _ _ hi Nat.one_pos]

theorem timesColumn_row {p : Array K} {n : Nat} (hn : p.size = n) (t : Nat → K) :
    (row p).timesColumn n t 0 = ∑ l ∈ range n, p.getD l 0 * t l := by
  subst hn
  apply sum_congr rfl
  intro l hl
  rw [toMat, Mat.ofRow, Mat.entry_tabulate _ _ _ _ Nat.one_pos (mem_range.mp hl)]

theorem timesColumn_row_ofFn (n : Nat) (f : Nat → K) (t : Nat → K) :
    (row (Array.ofFn fun i : Fin n => f i)).timesColumn n t 0 = ∑ l ∈ range n, f l * t l := by
  rw [timesColumn_row Array.size_ofFn]
  apply sum_congr rfl
  intro l hl
  simp [mem_range.mp hl]

theorem timesColumn_dense (r c : Nat) (f : Nat → Nat → K) (t : Nat → K) {i : Nat} (hi : i < r) :
    (dense (.ofFn r c f)).timesColumn c t i = ∑ l ∈ range c, f i l * t l := by
  apply sum_congr rfl
  intro l hl
  rw [toMat, Mat.entry_ofFn _ _ _ hi (mem_range.mp hl)]

end Jacobian

namespace UnaryKernel

theorem fst_sumEntries (x : Value K) (t : Nat → K) :
    (sumEntries (x.dual t)).fst = sumEntries x := by
  rw [sumEntries, fst_laneTotal]
  simp only [Value.fst_entry_dual]
  rfl

theorem snd_sumEntries (x : Value K) (t : Nat → K) :
    (sumEntries (x.dual t)).snd = ∑ i ∈ range x.size, t i := by
  rw [sumEntries, snd_laneTotal]
  exact sum_congr rfl fun i hi => Value.snd_entry_dual x t (mem_range.mp hi)

theorem fst_sumSquares (x : Value K) (t : Nat → K) :
    (sumSquares (x.dual t)).fst = sumSquares x := by
  rw [sumSquares, fst_laneTotal]
  simp only [fst_mul, Value.fst_entry_dual]
  rfl

theorem snd_sumSquares (x : Value K) (t : Nat → K) :
    (sumSquares (x.dual t)).snd = ∑ i ∈ range x.size, x.entry i * ((2 : Nat) : K) * t i := by
  rw [sumSquares, snd_laneTotal]
  apply sum_congr rfl
  intro i hi
  rw [DualNumber.snd_mul, Value.fst_entry_dual, Value.snd_entry_dual x t (mem_range.mp hi)]
  push_cast
  ring

theorem map_dual [Calculus K] (op : UnOp) (x : Value K) (t : Nat → K) :
    (map op).eval (x.dual t) =
      ((map op).eval x).dual (((map op).jacobian x).timesColumn x.size t) := by
  have hout (i : Nat) (hi : i < x.size) :
      ((map op).eval x).entry i = (Calculus.unary op).eval (x.entry i) := Value.entry_map _ _ hi
  have hdual (i : Nat) (hi : i < x.size) : ((map op).eval (x.dual t)).entry i =
      (Calculus.unary op).extend.eval ((x.dual t).entry i) := Value.entry_map _ _ hi
  apply Value.eq_dual rfl
  · intro i (hi : i < x.size)
    rw [hout i hi, hdual i hi, UnaryRule.fst_extend, Value.fst_entry_dual]
  · intro i (hi : i < x.size)
    have hcolumn := Jacobian.timesColumn_ofElements
      (.ofFn x.shape fun i => (Calculus.unary op).deriv (x.entry i) (((map op).eval x).entry i))
      t hi
    rw [Value.entry_ofFn x.shape _ hi, hout i hi] at hcolumn
    rw [hdual i hi, UnaryRule.snd_extend, Value.fst_entry_dual, Value.snd_entry_dual x t hi]
    exact hcolumn.symm

section Field

variable {K : Type} [Field K] [LT K] [DecidableLT K] [Elementary K]

theorem eval_dual (hhalf : (Elementary.half : K) * 2 = 1) (k : UnaryKernel) (x : Value K)
    (t : Nat → K) :
    k.eval (x.dual t) = (k.eval x).dual ((k.jacobian x).timesColumn x.size t) := by
  cases k with
  | map op => exact map_dual op x t
  | sum =>
    apply Value.scalar_eq_dual (fst_sumEntries x t)
    rw [snd_sumEntries, jacobian, partialAt, Jacobian.timesColumn_row_ofFn _ fun _ => 1]
    simp only [one_mul]
  | mean =>
    apply Value.scalar_eq_dual
    · refine (BinaryRule.fst_extend _ _ _).trans ?_
      rw [fst_sumEntries, fst_natCast]
      rfl
    · refine (BinaryRule.snd_extend _ _ _).trans ?_
      rw [snd_sumEntries, fst_natCast, snd_natCast, mul_zero, add_zero, mul_sum, jacobian,
        partialAt, Jacobian.timesColumn_row_ofFn _ fun _ => divide 1 (x.size : K)]
      rfl
  | norm =>
    apply Value.scalar_eq_dual
    · refine (UnaryRule.fst_extend _ _).trans ?_
      rw [fst_sumSquares]
    · refine (UnaryRule.snd_extend _ _).trans ?_
      rw [snd_sumSquares, fst_sumSquares, mul_sum, jacobian, partialAt,
        Jacobian.timesColumn_row_ofFn _ fun i => divide (x.entry i) ((norm.eval x).entry 0)]
      apply sum_congr rfl
      intro i _
      change Elementary.half / Elementary.sqrt (sumSquares x) *
        (x.entry i * ((2 : Nat) : K) * t i) = x.entry i / Elementary.sqrt (sumSquares x) * t i
      -- the half of the square root meets the two of the square
      calc Elementary.half / Elementary.sqrt (sumSquares x) * (x.entry i * ((2 : Nat) : K) * t i)
          = Elementary.half * 2 * (x.entry i / Elementary.sqrt (sumSquares x) * t i) := by
            push_cast
            ring
        _ = x.entry i / Elementary.sqrt (sumSquares x) * t i := by rw [hhalf, one_mul]
  | squaredNorm =>
    apply Value.scalar_eq_dual (fst_sumSquares x t)
    rw [snd_sumSquares, jacobian, partialAt,
      Jacobian.timesColumn_row_ofFn _ fun i => x.entry i * ((2 : Nat) : K)]

end Field

end UnaryKernel

namespace BinaryKernel

variable [Calculus K]

def Moves (k : BinaryKernel) (x y v : Value K) : Prop :=
  ∀ s t : Nat → K, ∃ i j, k.partialLeft x y = some i ∧ k.partialRight x y = some j ∧
    k.eval (x.dual s) (y.dual t) =
      some (v.dual fun l => i.timesColumn x.size s l + j.timesColumn y.size t l)

theorem cwise_moves (op : BinOp) {x y v : Value K} (h : (cwise op).eval x y = some v) :
    (cwise op).Moves x y v := by
  intro s t
  obtain ⟨hs, -⟩ := shape_of_eval h
  have hsize : y.size = x.size := congrArg Shape.size hs.symm
  rw [eval, Value.zipWith_of_shape _ hs] at h
  cases h
  refine ⟨_, _, congrArg (Option.map _) (Value.zipWith_of_shape _ hs),
    congrArg (Option.map _) (Value.zipWith_of_shape _ hs), ?_⟩
  have hd : (x.dual s).shape = (y.dual t).shape := hs
  rw [eval, Value.zipWith_of_shape _ hd]
  congr 1
  apply Value.eq_dual_extend (Calculus.binary op) (x.dual s).entry (y.dual t).entry rfl
  · intro i (hi : i < x.size)
    exact Value.entry_ofFn x.shape _ hi
  · intro i (hi : i < x.size)
    rw [Value.entry_ofFn x.shape _ hi, Value.fst_entry_dual, Value.fst_entry_dual]
  · intro i (hi : i < x.size)
    have hleft := Jacobian.timesColumn_ofElements
      (.ofFn x.shape fun i => (Calculus.binary op).dLeft (x.entry i) (y.entry i)) s hi
    have hright := Jacobian.timesColumn_ofElements
      (.ofFn x.shape fun i => (Calculus.binary op).dRight (x.entry i) (y.entry i)) t hi
    rw [Value.entry_ofFn x.shape _ hi] at hleft hright
    rw [Value.fst_entry_dual, Value.fst_entry_dual, Value.snd_entry_dual x s hi,
      Value.snd_entry_dual y t (hsize ▸ hi), hsize]
    exact congrArg₂ (· + ·) hleft hright

theorem broadcast_moves (op : BinOp) {x y v : Value K} (h : (broadcast op).eval x y = some v) :
    (broadcast op).Moves x y v := by
  intro s t
  obtain ⟨hs, -⟩ := shape_of_eval h
  have hsize := Value.size_of_scalar hs
  have hd : (y.dual t).shape = .scalar := hs
  rw [eval, if_pos hs] at h
  cases h
  refine ⟨_, _, if_pos hs, if_pos hs, ?_⟩
  rw [eval, if_pos hd]
  congr 1
  apply Value.eq_dual_extend (Calculus.binary op) (x.dual s).entry
    (fun _ => (y.dual t).entry 0) rfl
  · intro i (hi : i < x.size)
    exact Value.entry_map _ (x.dual s) hi
  · intro i (hi : i < x.size)
    rw [Value.entry_map _ x hi, Value.fst_entry_dual, Value.fst_entry_dual]
  · intro i (hi : i < x.size)
    have hleft := Jacobian.timesColumn_ofElements
      (x.map fun a => (Calculus.binary op).dLeft a (y.entry 0)) s hi
    have hright := Jacobian.timesColumn_column
      (x.map fun a => (Calculus.binary op).dRight a (y.entry 0)).entries t
      (i := i) ((Value.size_entries _).symm ▸ hi)
    rw [Value.entry_map _ x hi] at hleft
    rw [← Value.entry, Value.entry_map _ x hi] at hright
    rw [Value.fst_entry_dual, Value.fst_entry_dual, Value.snd_entry_dual x s hi,
      Value.snd_entry_dual y t (hsize ▸ Nat.one_pos), hsize]
    exact congrArg₂ (· + ·) hleft hright

theorem broadcastLeft_moves (op : BinOp) {x y v : Value K}
    (h : (broadcastLeft op).eval x y = some v) : (broadcastLeft op).Moves x y v := by
  intro s t
  obtain ⟨hs, -⟩ := shape_of_eval h
  have hsize := Value.size_of_scalar hs
  have hd : (x.dual s).shape = .scalar := hs
  rw [eval, if_pos hs] at h
  cases h
  refine ⟨_, _, if_pos hs, if_pos hs, ?_⟩
  rw [eval, if_pos hd]
  congr 1
  apply Value.eq_dual_extend (Calculus.binary op) (fun _ => (x.dual s).entry 0)
    (y.dual t).entry rfl
  · intro i (hi : i < y.size)
    exact Value.entry_map _ (y.dual t) hi
  · intro i (hi : i < y.size)
    rw [Value.entry_map _ y hi, Value.fst_entry_dual, Value.fst_entry_dual]
  · intro i (hi : i < y.size)
    have hleft := Jacobian.timesColumn_column
      (y.map fun b => (Calculus.binary op).dLeft (x.entry 0) b).entries s
      (i := i) ((Value.size_entries _).symm ▸ hi)
    have hright := Jacobian.timesColumn_ofElements
      (y.map fun b => (Calculus.binary op).dRight (x.entry 0) b) t hi
    rw [← Value.entry, Value.entry_map _ y hi] at hleft
    rw [Value.entry_map _ y hi] at hright
    rw [Value.fst_entry_dual, Value.fst_entry_dual, Value.snd_entry_dual y t hi,
      Value.snd_entry_dual x s (hsize ▸ Nat.one_pos), hsize]
    exact congrArg₂ (· + ·) hleft hright

theorem dot_moves {x y v : Value K} (h : dot.eval x y = some v) : dot.Moves x y v := by
  intro s t
  obtain ⟨n, hx, hy, -⟩ := shape_of_eval h
  have hxsize : x.size = n := congrArg Shape.size hx
  have hysize : y.size = n := congrArg Shape.size hy
  simp only [eval, hx, hy, if_true] at h
  cases h
  refine ⟨.row y.entries, .row x.entries, by simp only [partialLeft, hx, hy],
    by simp only [partialRight, hx, hy], ?_⟩
  simp only [eval, Value.shape_dual, hx, hy, if_true]
  congr 1
  apply Value.scalar_eq_dual
  · rw [fst_laneTotal]
    simp only [fst_mul, Value.fst_entry_dual]
  · rw [snd_laneTotal, hxsize, hysize,
      Jacobian.timesColumn_row (y.size_entries.trans hysize),
      Jacobian.timesColumn_row (x.size_entries.trans hxsize), ← sum_add_distrib]
    apply sum_congr rfl
    intro i hi
    have hi := mem_range.mp hi
    rw [DualNumber.snd_mul, Value.fst_entry_dual, Value.fst_entry_dual,
      Value.snd_entry_dual x s (hxsize ▸ hi), Value.snd_entry_dual y t (hysize ▸ hi), add_comm,
      mul_comm (s i)]
    rfl

theorem outer_moves {x y v : Value K} (h : outer.eval x y = some v) : outer.Moves x y v := by
  intro s t
  obtain ⟨m, n, hx, hy, -⟩ := shape_of_eval h
  have hxsize : x.size = m := congrArg Shape.size hx
  have hysize : y.size = n := congrArg Shape.size hy
  simp only [eval, hx, hy, plainCapacity_fits, if_true] at h
  cases h
  refine ⟨_, _, by simp only [partialLeft, hx, hy]; rfl,
    by simp only [partialRight, hx, hy]; rfl, ?_⟩
  simp only [eval, Value.shape_dual, hx, hy, plainCapacity_fits, if_true]
  congr 1
  apply Value.eq_dual rfl
  · intro i (hi : i < m * n)
    rw [Value.matrix, Value.entry_ofFn (.matrix m n) _ hi, Value.matrix,
      Value.entry_ofFn (.matrix m n) _ hi, fst_mul, Value.fst_entry_dual, Value.fst_entry_dual]
  · intro i (hi : i < m * n)
    have hrow : i % m < m := Nat.mod_lt i (Nat.pos_of_lt_mul_right hi)
    have hcol : i / m < n := Nat.div_lt_of_lt_mul hi
    rw [Value.matrix, Value.entry_ofFn (.matrix m n) _ hi, DualNumber.snd_mul,
      Value.fst_entry_dual, Value.fst_entry_dual, Value.snd_entry_dual x s (hxsize ▸ hrow),
      Value.snd_entry_dual y t (hysize ▸ hcol), hxsize, hysize,
      Jacobian.timesColumn_dense _ _ _ _ hi, Jacobian.timesColumn_dense _ _ _ _ hi,
      sum_pick hrow (fun _ => y.entry (i / m)), sum_pick hcol (fun _ => x.entry (i % m)), add_comm,
      mul_comm (s _)]

theorem matmul_vector_moves {x y v : Value K} (h : matmul.eval x y = some v) {m n : Nat}
    (hx : x.shape = .matrix m n) (hy : y.shape = .vector n) : matmul.Moves x y v := by
  intro s t
  have hxsize : x.size = m * n := congrArg Shape.size hx
  have hysize : y.size = n := congrArg Shape.size hy
  simp only [eval, hx, hy, plainCapacity_fits, and_self, if_true] at h
  cases h
  refine ⟨_, _, by simp only [partialLeft, hx, hy]; exact if_pos (.inr (Nat.le_refl n)),
    by simp only [partialRight, hx, hy]; rfl, ?_⟩
  simp only [eval, Value.shape_dual, hx, hy, plainCapacity_fits, and_self, if_true]
  congr 1
  apply Value.eq_dual rfl
  · intro i (hi : i < m)
    rw [Value.entry_ofFn (.vector m) _ hi, Value.entry_ofFn (.vector m) _ hi, fst_laneTotal]
    simp only [fst_mul, Value.cell, Value.fst_entry_dual]
  · intro i (hi : i < m)
    rw [Value.entry_ofFn (.vector m) _ hi, snd_laneTotal, hxsize, hysize,
      Jacobian.timesColumn_dense _ _ _ _ hi, Jacobian.timesColumn_dense _ _ _ _ hi,
      sum_pick_each hi, ← sum_add_distrib]
    apply sum_congr rfl
    intro l hl
    have hl := mem_range.mp hl
    rw [DualNumber.snd_mul, Value.cell, Value.fst_entry_dual, Value.fst_entry_dual,
      Value.snd_entry_dual x s (hxsize ▸ block_lt hi hl), Value.snd_entry_dual y t (hysize ▸ hl),
      add_comm, mul_comm (s _), Value.cell]

theorem matmul_matrix_moves {x y v : Value K} (h : matmul.eval x y = some v) {m n k : Nat}
    (hx : x.shape = .matrix m n) (hy : y.shape = .matrix n k) : matmul.Moves x y v := by
  intro s t
  have hxsize : x.size = m * n := congrArg Shape.size hx
  have hysize : y.size = n * k := congrArg Shape.size hy
  simp only [eval, hx, hy, plainCapacity_fits, and_self, if_true, productTotal_range] at h
  cases h
  refine ⟨_, _, by simp only [partialLeft, hx, hy]; exact if_pos (.inr (.inr (Nat.le_refl n))),
    by simp only [partialRight, hx, hy]; rfl, ?_⟩
  simp only [eval, Value.shape_dual, hx, hy, plainCapacity_fits, and_self, if_true,
    productTotal_range]
  congr 1
  apply Value.eq_dual rfl
  · intro i (hi : i < m * k)
    rw [Value.matrix, Value.entry_ofFn (.matrix m k) _ hi, Value.matrix,
      Value.entry_ofFn (.matrix m k) _ hi, fst_sum]
    simp only [fst_mul, Value.cell, Value.fst_entry_dual]
  · intro i (hi : i < m * k)
    have hrow : i % m < m := Nat.mod_lt i (Nat.pos_of_lt_mul_right hi)
    have hcol : i / m < k := Nat.div_lt_of_lt_mul hi
    rw [Value.matrix, Value.entry_ofFn (.matrix m k) _ hi, snd_sum, hxsize, hysize,
      Jacobian.timesColumn_dense _ _ _ _ hi, Jacobian.timesColumn_dense _ _ _ _ hi]
    simp only [eq_comm (a := i % m)]
    rw [sum_pick_each hrow n (fun l => y.cell n l (i / m)),
      sum_pick_block hcol n (fun l => x.cell m (i % m) l), ← sum_add_distrib]
    apply sum_congr rfl
    intro l hl
    have hl := mem_range.mp hl
    rw [DualNumber.snd_mul, Value.cell, Value.cell, Value.fst_entry_dual, Value.fst_entry_dual,
      Value.snd_entry_dual x s (hxsize ▸ block_lt hrow hl),
      Value.snd_entry_dual y t (hysize ▸ block_lt hl hcol), add_comm, mul_comm (s _), Value.cell,
      Value.cell]

theorem eval_dual {k : BinaryKernel} {x y v : Value K} (h : k.eval x y = some v) :
    k.Moves x y v := by
  cases k with
  | cwise op => exact cwise_moves op h
  | broadcast op => exact broadcast_moves op h
  | broadcastLeft op => exact broadcastLeft_moves op h
  | dot => exact dot_moves h
  | outer => exact outer_moves h
  | matmul =>
    obtain ⟨m, n, hx, ⟨hy, -⟩ | ⟨k, hy, -⟩⟩ := shape_of_eval h
    · exact matmul_vector_moves h hx hy
    · exact matmul_matrix_moves h hx hy

end BinaryKernel

end
end GradientGraph
