import GradientGraph.Proofs.Algebra.Rules
import GradientGraph.Proofs.Kernel.Flat

/-!
# Lifted kernels

An element-wise kernel does to each element of an array what its operator does to scalars, and
its Jacobians have the derivatives of the operator in the places of the elements, where both
count the elements column by column. The reductions of an array move by their Jacobians, and
the squared norm by its own value at the displacement besides.
-/

set_option autoImplicit false

namespace GradientGraph

open Matrix

variable {K : Type}

namespace Jacobian

variable [Zero K]

theorem denotes_diagonal {p : Array K} {n : Nat} (hp : p.size = n) {f : Fin n → K}
    (hf : ∀ i : Fin n, p.getD i 0 = f i) : (diagonal p).Denotes (Matrix.diagonal f) := by
  subst hp
  have hentries : (fun i : Fin p.size => p[i]) = f := by
    funext i
    rw [← hf i]
    simp
  exact hentries ▸ .diagonal p

theorem denotes_column {p : Array K} {n : Nat} (hp : p.size = n) {f : Fin n → K}
    (hf : ∀ i : Fin n, p.getD i 0 = f i) :
    (column p).Denotes (Matrix.replicateCol (Fin 1) f) := by
  subst hp
  have hentries : (fun i : Fin p.size => p[i]) = f := by
    funext i
    rw [← hf i]
    simp
  exact hentries ▸ .column p

theorem denotes_ofElements {v : Value K} {n : Nat} (hn : v.size = n) {f : Fin n → K}
    (hf : ∀ i : Fin n, v.entry i = f i) : (ofElements v).Denotes (Matrix.diagonal f) := by
  unfold ofElements
  split
  · rename_i hs
    obtain rfl : 1 = n := (Value.size_of_scalar hs).symm.trans hn
    have hconst : (fun _ : Fin 1 => v.entry 0) = f := by
      funext i
      rw [← hf i, Fin.val_eq_zero]
    exact hconst ▸ .scale 1 (v.entry 0)
  · exact denotes_diagonal (v.size_entries.trans hn) hf

end Jacobian

section Elementwise

variable [Zero K] [Add K] [Mul K] [MulAdd K] [Capacity K] [Calculus K]

/-- Whether the kernel makes an array of the shape and the elements, and has Jacobians that
stand for the matrices. -/
def BinaryKernel.Lifts (k : BinaryKernel) (x y : Value K) (s : Shape) (f : Fin s.size → K)
    {m n : Nat} (A : Matrix (Fin s.size) (Fin m) K) (B : Matrix (Fin s.size) (Fin n) K) : Prop :=
  ∃ v i j, k.eval x y = some v ∧ v.shape = s ∧ v.flat s.size = f ∧
    k.partialLeft x y = some i ∧ i.Denotes A ∧ k.partialRight x y = some j ∧ j.Denotes B

namespace BinaryKernel

theorem cwise_lifts (op : BinOp) {x y : Value K} {s : Shape} (hx : x.shape = s)
    (hy : y.shape = s) :
    (cwise op).Lifts x y s
      (fun i => (Calculus.binary op).eval (x.flat s.size i) (y.flat s.size i))
      (diagonal fun i => (Calculus.binary op).dLeft (x.flat s.size i) (y.flat s.size i))
      (diagonal fun i => (Calculus.binary op).dRight (x.flat s.size i) (y.flat s.size i)) := by
  have hs : x.shape = y.shape := hx.trans hy.symm
  subst hx
  have hentry (f : K → K → K) (i : Fin x.shape.size) :
      (Value.ofFn x.shape fun i => f (x.entry i) (y.entry i)).entry i =
        f (x.flat x.shape.size i) (y.flat x.shape.size i) := by
    rw [Value.entry_ofFn _ _ i.isLt, x.flat_of_shape rfl, y.flat_of_shape hs.symm]
  refine ⟨_, _, _, Value.zipWith_of_shape _ hs, rfl, ?_,
    congrArg (Option.map _) (Value.zipWith_of_shape _ hs), ?_,
    congrArg (Option.map _) (Value.zipWith_of_shape _ hs), ?_⟩
  · exact Value.flat_eq rfl (hentry _)
  · exact Jacobian.denotes_ofElements rfl (hentry _)
  · exact Jacobian.denotes_ofElements rfl (hentry _)

theorem broadcast_lifts (op : BinOp) {x y : Value K} {s : Shape} (hx : x.shape = s)
    (hy : y.shape = .scalar) :
    (broadcast op).Lifts x y s
      (fun i => (Calculus.binary op).eval (x.flat s.size i) (y.flat 1 0))
      (diagonal fun i => (Calculus.binary op).dLeft (x.flat s.size i) (y.flat 1 0))
      (replicateCol (Fin 1) fun i =>
        (Calculus.binary op).dRight (x.flat s.size i) (y.flat 1 0)) := by
  subst hx
  have hentry (f : K → K → K) (i : Fin x.shape.size) :
      (x.map fun a => f a (y.entry 0)).entry i = f (x.flat x.shape.size i) (y.flat 1 0) := by
    rw [Value.entry_map _ x i.isLt, x.flat_of_shape rfl, y.flat_of_scalar hy]
  refine ⟨_, _, _, if_pos hy, rfl, ?_, if_pos hy, ?_, if_pos hy, ?_⟩
  · exact Value.flat_eq rfl (hentry _)
  · exact Jacobian.denotes_ofElements rfl (hentry _)
  · exact Jacobian.denotes_column (Value.size_entries _) (hentry _)

theorem broadcastLeft_lifts (op : BinOp) {x y : Value K} {s : Shape} (hx : x.shape = .scalar)
    (hy : y.shape = s) :
    (broadcastLeft op).Lifts x y s
      (fun i => (Calculus.binary op).eval (x.flat 1 0) (y.flat s.size i))
      (replicateCol (Fin 1) fun i =>
        (Calculus.binary op).dLeft (x.flat 1 0) (y.flat s.size i))
      (diagonal fun i => (Calculus.binary op).dRight (x.flat 1 0) (y.flat s.size i)) := by
  subst hy
  have hentry (f : K → K → K) (i : Fin y.shape.size) :
      (y.map fun b => f (x.entry 0) b).entry i = f (x.flat 1 0) (y.flat y.shape.size i) := by
    rw [Value.entry_map _ y i.isLt, y.flat_of_shape rfl, x.flat_of_scalar hx]
  refine ⟨_, _, _, if_pos hx, rfl, ?_, if_pos hx, ?_, if_pos hx, ?_⟩
  · exact Value.flat_eq rfl (hentry _)
  · exact Jacobian.denotes_column (Value.size_entries _) (hentry _)
  · exact Jacobian.denotes_ofElements rfl (hentry _)

end BinaryKernel

end Elementwise

section Mapping

variable [Zero K] [One K] [Add K] [Mul K] [NatCast K] [Calculus K]

def UnaryKernel.Lifts (k : UnaryKernel) (x : Value K) (s : Shape) (f : Fin s.size → K)
    (A : Matrix (Fin s.size) (Fin s.size) K) : Prop :=
  (k.eval x).shape = s ∧ (k.eval x).flat s.size = f ∧ (k.jacobian x).Denotes A

theorem UnaryKernel.map_lifts (op : UnOp) {x : Value K} {s : Shape} (hx : x.shape = s) :
    (map op).Lifts x s (fun i => (Calculus.unary op).eval (x.flat s.size i))
      (diagonal fun i => (Calculus.unary op).deriv (x.flat s.size i)
        ((Calculus.unary op).eval (x.flat s.size i))) := by
  subst hx
  have hentry (i : Fin x.shape.size) : ((map op).eval x).entry i =
      (Calculus.unary op).eval (x.flat x.shape.size i) := by
    rw [x.flat_of_shape rfl]
    exact Value.entry_map _ x i.isLt
  have hderiv (i : Fin x.shape.size) : (Value.ofFn x.shape fun i =>
      (Calculus.unary op).deriv (x.entry i) (((map op).eval x).entry i)).entry i =
        (Calculus.unary op).deriv (x.flat x.shape.size i)
          ((Calculus.unary op).eval (x.flat x.shape.size i)) := by
    rw [Value.entry_ofFn _ _ i.isLt, hentry i, x.flat_of_shape rfl]
  exact ⟨rfl, Value.flat_eq rfl hentry, Jacobian.denotes_ofElements rfl hderiv⟩

end Mapping

section Reductions

open Finset

namespace UnaryKernel

section Sums

variable [CommRing K]

theorem sumEntries_exact (x : Value K) : sumEntries x = ∑ i ∈ range x.size, x.entry i :=
  laneTotal_eq_sum _ _

theorem sumSquares_exact (x : Value K) :
    sumSquares x = ∑ i ∈ range x.size, x.entry i * x.entry i := laneTotal_eq_sum _ _

theorem sumSquares_flat (x : Value K) : sumSquares x = x.flat x.size ⬝ᵥ x.flat x.size := by
  rw [sumSquares_exact, dotProduct, Finset.sum_range]
  exact sum_congr rfl fun l _ => by rw [x.flat_apply]

end Sums

variable [Field K] [LT K] [DecidableLT K] [Elementary K]

/-- Whether the value of the reduction moves with the array by the Jacobian, up to a rest. -/
def Expands (k : UnaryKernel) (x : Value K) (rest : Value K → Fin 1 → K) : Prop :=
  ∃ A : Matrix (Fin 1) (Fin x.size) K, (k.jacobian x).Denotes A ∧
    ∀ dx x', x.zipWith (· + ·) dx = some x' →
      (k.eval x').flat 1 = (k.eval x).flat 1 + A *ᵥ dx.flat x.size + rest dx

theorem expands_of_row {k : UnaryKernel} {x : Value K} {rest : Value K → Fin 1 → K}
    (hscalar : ∀ y : Value K, (k.eval y).shape = .scalar) {f : Nat → K}
    (hrow : k.jacobian x = .row (Array.ofFn fun i : Fin x.size => f i))
    (hmoves : ∀ dx x' : Value K, x'.size = x.size →
      (∀ i, x'.entry i = x.entry i + dx.entry i) → dx.size = x.size →
      (k.eval x').entry 0 =
        (k.eval x).entry 0 + ∑ l ∈ range x.size, f l * dx.entry l + rest dx 0) :
    k.Expands x rest := by
  obtain ⟨A, hA, htimes⟩ := Jacobian.exists_row x.size f
  refine ⟨A, hrow ▸ hA, fun dx x' hsum => ?_⟩
  obtain ⟨hdx, hx', hentry⟩ := Value.entry_sum hsum
  have hflat : dx.flat x.size = fun l : Fin x.size => dx.entry l :=
    Value.flat_eq hdx fun _ => rfl
  funext i
  obtain rfl : i = 0 := Subsingleton.elim i 0
  rw [hflat, Pi.add_apply, Pi.add_apply, htimes, Value.flat_of_scalar _ (hscalar x'),
    Value.flat_of_scalar _ (hscalar x)]
  exact hmoves dx x' (congrArg Shape.size hx') hentry (congrArg Shape.size hdx)

theorem sum_expands (x : Value K) : sum.Expands x fun _ => 0 := by
  refine expands_of_row (fun _ => rfl) (f := fun _ => 1) rfl fun dx x' hsize hentry _ => ?_
  change sumEntries x' = sumEntries x + _ + 0
  rw [sumEntries_exact, sumEntries_exact, hsize]
  simp only [hentry, sum_add_distrib, one_mul, add_zero]

theorem mean_expands (x : Value K) : mean.Expands x fun _ => 0 := by
  refine expands_of_row (fun _ => rfl) (f := fun _ => 1 / (x.size : K)) rfl
    fun dx x' hsize hentry _ => ?_
  change sumEntries x' / (x'.size : K) = sumEntries x / (x.size : K) + _ + 0
  rw [sumEntries_exact, sumEntries_exact, hsize, ← mul_sum]
  simp only [hentry, sum_add_distrib]
  ring

theorem squaredNorm_expands (x : Value K) :
    squaredNorm.Expands x fun dx => (squaredNorm.eval dx).flat 1 := by
  refine expands_of_row (fun _ => rfl) (f := fun i => x.entry i * ((2 : Nat) : K)) rfl
    fun dx x' hsize hentry hdx => ?_
  rw [Value.flat_of_scalar (squaredNorm.eval dx) rfl]
  change sumSquares x' = sumSquares x + _ + sumSquares dx
  rw [sumSquares_exact, sumSquares_exact, sumSquares_exact, hsize, hdx, ← sum_add_distrib,
    ← sum_add_distrib]
  refine sum_congr rfl fun l _ => ?_
  rw [hentry]
  push_cast
  ring

theorem norm_moves {x : Value K} (hx : (norm.eval x).flat 1 0 ≠ 0) :
    ∃ A : Matrix (Fin 1) (Fin x.size) K, (norm.jacobian x).Denotes A ∧
      ∀ dx : Value K, dx.shape = x.shape →
        (norm.eval x).flat 1 0 * (A *ᵥ dx.flat x.size) 0 =
          x.flat x.size ⬝ᵥ dx.flat x.size := by
  rw [Value.flat_of_scalar (norm.eval x) rfl] at hx
  obtain ⟨A, hA, htimes⟩ :=
    Jacobian.exists_row x.size fun i => x.entry i / (norm.eval x).entry 0
  refine ⟨A, hA, fun dx hdx => ?_⟩
  have hflat : dx.flat x.size = fun l : Fin x.size => dx.entry l :=
    Value.flat_eq hdx fun _ => rfl
  rw [hflat, htimes, Value.flat_of_scalar (norm.eval x) rfl, mul_sum, dotProduct,
    Finset.sum_range]
  refine sum_congr rfl fun l _ => ?_
  rw [x.flat_apply, ← mul_assoc, mul_div_cancel₀ _ hx]

end UnaryKernel

end Reductions

/-- Element-wise kernels, broadcasts of a scalar on either side and maps lift the operators
of scalars, whatever these are, to arrays of every shape. Over a field, sum and mean move by
their Jacobians, the squared norm by its own value at the displacement besides, and the norm
has its array as Jacobian, divided by itself. -/
theorem lifted_kernels :
    (∀ {K : Type} [Zero K] [One K] [Add K] [Mul K] [MulAdd K] [Capacity K] [NatCast K]
      [Calculus K] (x y : Value K) (s : Shape),
      (∀ op, x.shape = s → y.shape = s → (BinaryKernel.cwise op).Lifts x y s
        (fun i => (Calculus.binary op).eval (x.flat s.size i) (y.flat s.size i))
        (diagonal fun i => (Calculus.binary op).dLeft (x.flat s.size i) (y.flat s.size i))
        (diagonal fun i =>
          (Calculus.binary op).dRight (x.flat s.size i) (y.flat s.size i))) ∧
      (∀ op, x.shape = s → y.shape = .scalar → (BinaryKernel.broadcast op).Lifts x y s
        (fun i => (Calculus.binary op).eval (x.flat s.size i) (y.flat 1 0))
        (diagonal fun i => (Calculus.binary op).dLeft (x.flat s.size i) (y.flat 1 0))
        (replicateCol (Fin 1) fun i =>
          (Calculus.binary op).dRight (x.flat s.size i) (y.flat 1 0))) ∧
      (∀ op, x.shape = .scalar → y.shape = s → (BinaryKernel.broadcastLeft op).Lifts x y s
        (fun i => (Calculus.binary op).eval (x.flat 1 0) (y.flat s.size i))
        (replicateCol (Fin 1) fun i =>
          (Calculus.binary op).dLeft (x.flat 1 0) (y.flat s.size i))
        (diagonal fun i => (Calculus.binary op).dRight (x.flat 1 0) (y.flat s.size i))) ∧
      (∀ op, x.shape = s → (UnaryKernel.map op).Lifts x s
        (fun i => (Calculus.unary op).eval (x.flat s.size i))
        (diagonal fun i => (Calculus.unary op).deriv (x.flat s.size i)
          ((Calculus.unary op).eval (x.flat s.size i))))) ∧
    ∀ {K : Type} [Field K] [LT K] [DecidableLT K] [Elementary K] (x : Value K),
      UnaryKernel.sum.Expands x (fun _ => 0) ∧ UnaryKernel.mean.Expands x (fun _ => 0) ∧
      UnaryKernel.squaredNorm.Expands x
        (fun dx => (UnaryKernel.squaredNorm.eval dx).flat 1) ∧
      ((UnaryKernel.norm.eval x).flat 1 0 ≠ 0 →
        ∃ A : Matrix (Fin 1) (Fin x.size) K, (UnaryKernel.norm.jacobian x).Denotes A ∧
          ∀ dx : Value K, dx.shape = x.shape →
            (UnaryKernel.norm.eval x).flat 1 0 * (A *ᵥ dx.flat x.size) 0 =
              x.flat x.size ⬝ᵥ dx.flat x.size) := by
  constructor
  · intro K _ _ _ _ _ _ _ _ x y s
    exact ⟨fun op => BinaryKernel.cwise_lifts op, fun op => BinaryKernel.broadcast_lifts op,
      fun op => BinaryKernel.broadcastLeft_lifts op, fun op => UnaryKernel.map_lifts op⟩
  · intro K _ _ _ _ x
    exact ⟨UnaryKernel.sum_expands x, UnaryKernel.mean_expands x,
      UnaryKernel.squaredNorm_expands x, UnaryKernel.norm_moves⟩

/-- Two matrices of two rows and three columns, given by rows and read by columns, with a
scalar on either side, the squares of the first and its norm. -/
theorem lifted_kernels_matrix :
    let rows (a b c d e f : ℝ) : Value ℝ :=
      .matrix 2 3 fun i j => #[a, b, c, d, e, f].getD (3 * i + j) 0
    let x := rows 1 2 3 4 5 6
    let y := rows 7 8 9 10 11 12
    (BinaryKernel.cwise .mul).Lifts x y (.matrix 2 3)
      (fun i => ![1, 4, 2, 5, 3, 6] i * ![7, 10, 8, 11, 9, 12] i)
      (diagonal ![7, 10, 8, 11, 9, 12]) (diagonal ![1, 4, 2, 5, 3, 6]) ∧
    (BinaryKernel.broadcast .sub).Lifts x (.scalar 7) (.matrix 2 3)
      (fun i => ![1, 4, 2, 5, 3, 6] i - 7) (diagonal fun _ => 1)
      (replicateCol (Fin 1) fun _ => -1) ∧
    (BinaryKernel.broadcastLeft .sub).Lifts (.scalar 7) x (.matrix 2 3)
      (fun i => 7 - ![1, 4, 2, 5, 3, 6] i) (replicateCol (Fin 1) fun _ => 1)
      (diagonal fun _ => -1) ∧
    (UnaryKernel.map .square).Lifts x (.matrix 2 3)
      (fun i => ![1, 4, 2, 5, 3, 6] i * ![1, 4, 2, 5, 3, 6] i)
      (diagonal fun i => (2 : Nat) * ![1, 4, 2, 5, 3, 6] i) ∧
    (UnaryKernel.norm.eval x).flat 1 0 ≠ 0 ∧
    ∃ A : Matrix (Fin 1) (Fin 6) ℝ, (UnaryKernel.norm.jacobian x).Denotes A ∧
      (UnaryKernel.norm.eval x).flat 1 0 * (A *ᵥ ![7, 10, 8, 11, 9, 12]) 0 = 217 := by
  intro rows x y
  have hrows (a b c d e f : ℝ) :
      (rows a b c d e f).flat (Shape.matrix 2 3).size = ![a, d, b, e, c, f] := by
    funext i
    fin_cases i <;> rfl
  have hx : x.flat (Shape.matrix 2 3).size = ![1, 4, 2, 5, 3, 6] := hrows ..
  have hy : y.flat (Shape.matrix 2 3).size = ![7, 10, 8, 11, 9, 12] := hrows ..
  have hlift := lifted_kernels.1 (K := ℝ)
  have hmul := (hlift x y (.matrix 2 3)).1 .mul rfl rfl
  have hright := (hlift x (.scalar 7) (.matrix 2 3)).2.1 .sub rfl rfl
  have hleft := (hlift (.scalar 7) x (.matrix 2 3)).2.2.1 .sub rfl rfl
  have hsquare := (hlift x x (.matrix 2 3)).2.2.2 .square rfl
  rw [hx, hy] at hmul
  rw [hx] at hright hleft hsquare
  have hnorm : (UnaryKernel.norm.eval x).flat 1 0 ≠ 0 := by
    rw [Value.flat_of_scalar _ rfl]
    change √(UnaryKernel.sumSquares x) ≠ 0
    have hsum : UnaryKernel.sumSquares x = 91 := by
      have hself : UnaryKernel.sumSquares x =
          x.flat (Shape.matrix 2 3).size ⬝ᵥ x.flat (Shape.matrix 2 3).size :=
        UnaryKernel.sumSquares_flat x
      have htotal : (![1, 4, 2, 5, 3, 6] : Fin 6 → ℝ) ⬝ᵥ ![1, 4, 2, 5, 3, 6] = 91 := by
        simp only [dotProduct, Fin.sum_univ_six, cons_val]
        norm_num
      rw [hself, hx]
      exact htotal
    rw [hsum]
    positivity
  obtain ⟨A, hA, hmoves⟩ := (lifted_kernels.2 x).2.2.2 hnorm
  have hdot := hmoves y rfl
  change _ * (A *ᵥ y.flat (Shape.matrix 2 3).size) 0 =
    x.flat (Shape.matrix 2 3).size ⬝ᵥ y.flat (Shape.matrix 2 3).size at hdot
  rw [hx, hy] at hdot
  have htotal : (![1, 4, 2, 5, 3, 6] : Fin 6 → ℝ) ⬝ᵥ ![7, 10, 8, 11, 9, 12] = 217 := by
    simp only [dotProduct, Fin.sum_univ_six, cons_val]
    norm_num
  exact ⟨hmul, hright, hleft, hsquare, hnorm, A, hA, hdot.trans htotal⟩

end GradientGraph
