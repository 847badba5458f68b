import GradientGraph.Kernel.Binary
import GradientGraph.Proofs.Algebra.Dims
import GradientGraph.Proofs.Algebra.Sum
import GradientGraph.Workbench.Item

/-!
# What operators mean

An operator between two values is an operation on numbers that is carried out element by element,
a scalar beside an array being repeated, or it is the matrix product. This is told by the shapes
of the values alone. The kernel that the categories of the operands lead to computes just that.
-/

set_option autoImplicit false

namespace GradientGraph

inductive Infix where
  | arithmetic (op : BinOp)
  | matmul
deriving DecidableEq, Repr

namespace Infix

def name : Infix → String
  | .arithmetic .add => "add"
  | .arithmetic .sub => "sub"
  | .arithmetic .mul => "mul"
  | .arithmetic .div => "truediv"
  | .arithmetic .pow => "pow"
  | .matmul => "matmul"

def function : Infix → BinaryFunction
  | .arithmetic op => .operator op
  | .matmul => .matmul

def all : List Infix :=
  [.arithmetic .add, .arithmetic .sub, .arithmetic .mul, .arithmetic .div, .arithmetic .pow,
    .matmul]

theorem mem_all (f : Infix) : f ∈ all := by
  cases f with
  | arithmetic op => cases op <;> decide
  | matmul => decide

end Infix

section Sums

variable {K : Type} [Zero K] [Add K] [Mul K] [MulAdd K]

/-- Whether the number is a sum of the products `f k * g k` over the indices, which may be added
in any order, each of them rounded before it is added or with the sum. -/
inductive SumsTo (f g : Nat → K) : Multiset Nat → K → Prop where
  | zero : SumsTo f g 0 0
  | product (k : Nat) : SumsTo f g {k} (f k * g k)
  | fused (k : Nat) {ks : Multiset Nat} {s : K} (h : SumsTo f g ks s) :
    SumsTo f g (ks + {k}) (MulAdd.mulAdd (f k) (g k) s)
  | add {ks ls : Multiset Nat} {s t : K} (h : SumsTo f g ks s) (h' : SumsTo f g ls t) :
    SumsTo f g (ks + ls) (s + t)

namespace SumsTo

variable {f g : Nat → K}

theorem totalFrom {ks : Multiset Nat} {s : K} (h : SumsTo f g ks s) (n : Nat)
    {is : Nat → Multiset Nat} {xs : Nat → K} (hxs : ∀ i, SumsTo f g (is i) (xs i)) :
    SumsTo f g (GradientGraph.totalFrom ks n is) (GradientGraph.totalFrom s n xs) := by
  induction n with
  | zero => exact h
  | succ n ih => exact ih.add (hxs n)

theorem laneTotal (n : Nat) :
    SumsTo f g (Multiset.range n) (GradientGraph.laneTotal n fun k => f k * g k) := by
  have hlane (k : Nat) :
      SumsTo f g (lane n (fun i => {i}) k) (lane n (fun i => f i * g i) k) :=
    zero.totalFrom _ fun _ => product _
  have hsum : SumsTo f g (GradientGraph.laneTotal n fun k => {k})
      (GradientGraph.laneTotal n fun k => f k * g k) :=
    (zero.totalFrom 4 fun k => (hlane k).add (hlane (k + 4))).totalFrom _ fun _ => product _
  rwa [laneTotal_eq_sum, Finset.sum_multiset_singleton] at hsum

theorem productFrom {is js : Multiset Nat} {done run : K} (hdone : SumsTo f g is done)
    (hrun : SumsTo f g js run) (block : Nat) (ks : List Nat) :
    SumsTo f g (is + js + ks) (GradientGraph.productFrom f g done run block ks) := by
  induction ks generalizing is js done run block with
  | nil =>
    rw [Multiset.coe_nil, add_zero]
    exact hdone.add hrun
  | cons k ks ih =>
    rw [GradientGraph.productFrom, ← Multiset.cons_coe, ← Multiset.singleton_add]
    split
    · have hmore := ih hdone (hrun.fused k) block
      rwa [← add_assoc, add_assoc (is + js)] at hmore
    · have hmore := ih (hdone.add hrun) (zero.fused k) (k / productBlock)
      rwa [zero_add, add_assoc (is + js)] at hmore

theorem productTotal (n : Nat) :
    SumsTo f g (Multiset.range n) (GradientGraph.productTotal f g (List.range n)) := by
  have hsum := zero.productFrom zero 0 (List.range n) (f := f) (g := g)
  rwa [zero_add, zero_add] at hsum

end SumsTo

theorem SumsTo.exact {K : Type} [CommRing K] {f g : Nat → K} {ks : Multiset Nat} {s : K}
    (h : SumsTo f g ks s) : s = (ks.map fun k => f k * g k).sum := by
  induction h with
  | zero => rfl
  | product k => rw [Multiset.map_singleton, Multiset.sum_singleton]
  | fused k h ih =>
    rw [Multiset.map_add, Multiset.sum_add, ← ih, Multiset.map_singleton, Multiset.sum_singleton,
      add_comm]
    rfl
  | add h h' ih ih' => rw [Multiset.map_add, Multiset.sum_add, ← ih, ← ih']

end Sums

section Meaning

variable {K : Type} [Add K] [Sub K] [Mul K] [Div K] [Elementary K]

def BinOp.apply : BinOp → K → K → K
  | .add, x, y => x + y
  | .sub, x, y => x - y
  | .mul, x, y => x * y
  | .div, x, y => x / y
  | .pow, x, y => Elementary.pow x y

/-- Whether the rules in force give operators the values that they are written for. -/
def UsualOperators (K : Type) [Add K] [Sub K] [Mul K] [Div K] [Elementary K] [Calculus K] : Prop :=
  ∀ (op : BinOp) (x y : K), (Calculus.binary op).eval x y = op.apply x y

variable [Zero K] [MulAdd K]

inductive Infix.Means : Infix → (u v z : Value K) → Prop where
  /-- An operator between operands of one shape is applied element by element. -/
  | elementwise {op : BinOp} {u v z : Value K} (hu : u.shape = z.shape) (hv : v.shape = z.shape)
    (h : ∀ i < z.size, z.entry i = op.apply (u.entry i) (v.entry i)) : Means (.arithmetic op) u v z
  /-- A scalar on the right is repeated. -/
  | repeatedRight {op : BinOp} {u v z : Value K} (hu : u.shape = z.shape) (hv : v.shape = .scalar)
    (h : ∀ i < z.size, z.entry i = op.apply (u.entry i) (v.entry 0)) : Means (.arithmetic op) u v z
  /-- A scalar on the left is repeated. -/
  | repeatedLeft {op : BinOp} {u v z : Value K} (hu : u.shape = .scalar) (hv : v.shape = z.shape)
    (h : ∀ i < z.size, z.entry i = op.apply (u.entry 0) (v.entry i)) : Means (.arithmetic op) u v z
  /-- A matrix times a vector, row by row. -/
  | vector {r s : Nat} {u v z : Value K} (hu : u.shape = .matrix r s) (hv : v.shape = .vector s)
    (hz : z.shape = .vector r)
    (h : ∀ i < r, SumsTo (u.cell r i) v.entry (Multiset.range s) (z.entry i)) : Means .matmul u v z
  /-- A matrix times a matrix, row by column. -/
  | matrix {r s c : Nat} {u v z : Value K} (hu : u.shape = .matrix r s)
    (hv : v.shape = .matrix s c) (hz : z.shape = .matrix r c)
    (h : ∀ i < r, ∀ j < c,
      SumsTo (u.cell r i) (fun k => v.cell s k j) (Multiset.range s) (z.cell r i j)) :
    Means .matmul u v z

end Meaning

section Kernels

theorem Shape.category_eq_scalar {s : Shape} : s.category = .scalar ↔ s = .scalar := by
  cases s <;> simp [category]

theorem Value.cell_matrix {K : Type} [Zero K] {r c i j : Nat} (f : Nat → Nat → K) (hi : i < r)
    (hj : j < c) : (Value.matrix r c f).cell r i j = f i j := by
  rw [cell, matrix, entry_ofFn _ _ (block_lt hi hj), Nat.add_comm, block_mod hi, block_div hi]

variable {K : Type} [Zero K] [Add K] [Sub K] [Mul K] [Div K] [MulAdd K] [Capacity K] [Elementary K]
  [Calculus K]

/-- Whether a computation gives what the operator means if it gives anything, and does so if the
values are of the categories, there is such a value, and there is room for it. -/
abbrev Infix.Computes (f : Infix) (l r : Category) (u v : Value K) : Option (Value K) → Prop :=
  Delivers ((u.category = l ∧ v.category = r) ∧ ∃ z, f.Means u v z ∧ Capacity.fits K z.dims = true)
    (f.Means u v)

variable {u v : Value K} {op : BinOp} {l r c : Category}

theorem computes_cwise (hK : UsualOperators K) :
    (Infix.arithmetic op).Computes c c u v ((BinaryKernel.cwise op).eval u v) := by
  rw [BinaryKernel.eval, Value.zipWith]
  by_cases hshape : u.shape = v.shape
  · rw [if_pos hshape]
    refine .some (.elementwise rfl hshape.symm fun i hi => ?_)
    exact (Value.entry_ofFn u.shape _ hi).trans (hK op _ _)
  · rw [if_neg hshape]
    refine .none ?_
    rintro ⟨⟨hu, hv⟩, z, hz, -⟩
    -- a scalar that is repeated is of another category
    have hscalar : u.shape = .scalar ↔ v.shape = .scalar := by
      rw [← Shape.category_eq_scalar, ← Shape.category_eq_scalar]
      exact ⟨(hv.trans hu.symm).trans, (hu.trans hv.symm).trans⟩
    cases hz with
    | elementwise hu hv => exact hshape (hu.trans hv.symm)
    | repeatedRight hu hv => exact hshape ((hscalar.mpr hv).trans hv.symm)
    | repeatedLeft hu hv => exact hshape (hu.trans (hscalar.mp hu).symm)

theorem computes_broadcast (hK : UsualOperators K) :
    (Infix.arithmetic op).Computes l .scalar u v ((BinaryKernel.broadcast op).eval u v) := by
  rw [BinaryKernel.eval]
  by_cases hv : v.shape = .scalar
  · rw [if_pos hv]
    refine .some (.repeatedRight rfl hv fun i hi => ?_)
    exact (Value.entry_map _ u hi).trans (hK op _ _)
  · rw [if_neg hv]
    exact .none fun h => hv (Shape.category_eq_scalar.mp h.1.2)

theorem computes_broadcastLeft (hK : UsualOperators K) :
    (Infix.arithmetic op).Computes .scalar r u v ((BinaryKernel.broadcastLeft op).eval u v) := by
  rw [BinaryKernel.eval]
  by_cases hu : u.shape = .scalar
  · rw [if_pos hu]
    refine .some (.repeatedLeft hu rfl fun i hi => ?_)
    exact (Value.entry_map _ v hi).trans (hK op _ _)
  · rw [if_neg hu]
    exact .none fun h => hu (Shape.category_eq_scalar.mp h.1.1)

theorem computes_matmul : Infix.matmul.Computes l r u v (BinaryKernel.matmul.eval u v) := by
  rw [BinaryKernel.eval]
  split
  · rename_i r s n hu hv
    split
    · rename_i hfits
      obtain ⟨rfl, -⟩ := hfits
      refine .some (.vector hu hv rfl fun i hi => ?_)
      rw [Value.entry_ofFn (.vector r) _ hi]
      exact .laneTotal s
    · rename_i hfits
      refine .none ?_
      rintro ⟨-, z, hz, hroom⟩
      cases hz with
      | vector hu' hv' hz =>
        cases hu.symm.trans hu'
        cases hv.symm.trans hv'
        rw [Value.dims, hz] at hroom
        exact hfits ⟨rfl, hroom⟩
      | matrix hu' hv' => cases hv.symm.trans hv'
  · rename_i r s t c hu hv
    split
    · rename_i hfits
      obtain ⟨rfl, -⟩ := hfits
      refine .some (.matrix hu hv rfl fun i hi j hj => ?_)
      rw [Value.cell_matrix _ hi hj]
      exact .productTotal s
    · rename_i hfits
      refine .none ?_
      rintro ⟨-, z, hz, hroom⟩
      cases hz with
      | vector hu' hv' => cases hv.symm.trans hv'
      | matrix hu' hv' hz =>
        cases hu.symm.trans hu'
        cases hv.symm.trans hv'
        rw [Value.dims, hz] at hroom
        exact hfits ⟨rfl, hroom⟩
  · rename_i hvector hmatrix
    refine .none ?_
    rintro ⟨-, z, hz, -⟩
    cases hz with
    | vector hu hv => exact hvector _ _ _ hu hv
    | matrix hu hv => exact hmatrix _ _ _ _ hu hv

/-- The kernel for operands of the categories computes what the operator means. -/
theorem Infix.computes (hK : UsualOperators K) {f : Infix} {k : BinaryKernel}
    (hk : f.function.kernel? l r = some k) (u v : Value K) : f.Computes l r u v (k.eval u v) := by
  cases f with
  | arithmetic op =>
    simp only [function, BinaryFunction.kernel?] at hk
    split at hk
    · rename_i hlr
      subst hlr
      cases hk
      exact computes_cwise hK
    · split at hk
      · rename_i hr
        subst hr
        cases hk
        exact computes_broadcast hK
      · split at hk
        · rename_i hl
          obtain ⟨rfl, -⟩ := hl
          cases hk
          exact computes_broadcastLeft hK
        · cases hk
  | matmul =>
    cases hk
    exact computes_matmul

end Kernels

end GradientGraph
