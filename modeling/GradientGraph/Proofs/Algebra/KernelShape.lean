import GradientGraph.Kernel.Binary
import GradientGraph.Kernel.Unary
import GradientGraph.Proofs.Algebra.Product

/-!
# Shapes of kernels

What shapes a kernel takes and what shape its value has. Wherever the operands have shapes
that it takes, a kernel has its partial derivatives, each with a row for every element of
the value and a column for every element of the operand.
-/

set_option autoImplicit false

namespace GradientGraph

def UnaryKernel.shape : UnaryKernel → Shape → Shape
  | .map _, s => s
  | _, _ => .scalar

theorem UnaryKernel.category_shape (k : UnaryKernel) (s : Shape) :
    (k.shape s).category = k.category s.category := by
  cases k <;> rfl

namespace BinaryKernel

def Makes : BinaryKernel → (l r s : Shape) → Prop
  | .cwise _, l, r, s => l = r ∧ s = l
  | .broadcast _, l, r, s => r = .scalar ∧ s = l
  | .broadcastLeft _, l, r, s => l = .scalar ∧ s = r
  | .dot, l, r, s => ∃ n, l = .vector n ∧ r = .vector n ∧ s = .scalar
  | .outer, l, r, s => ∃ m n, l = .vector m ∧ r = .vector n ∧ s = .matrix m n
  | .matmul, l, r, s => ∃ m k, l = .matrix m k ∧
      (r = .vector k ∧ s = .vector m ∨ ∃ n, r = .matrix k n ∧ s = .matrix m n)

/-- Whether the dimensions of two arrays, of categories that the kernel takes, fit: the
same ones for an element-wise kernel and the inner product, the inner ones for the matrix
product, and any for the others. -/
def Joins : BinaryKernel → (l r : List Nat) → Prop
  | .cwise _, l, r | .dot, l, r => l = r
  | .matmul, l, r => l[1]? = r[0]?
  | .broadcast _, _, _ | .broadcastLeft _, _, _ | .outer, _, _ => True

variable {k : BinaryKernel} {l r s : Shape} {c : Category}

theorem compatible_iff : k.compatible l r ↔ ∃ s, k.Makes l r s := by
  cases k with
  | cwise op => simp [compatible, Makes]
  | broadcast op => simp [compatible, Makes]
  | broadcastLeft op => simp [compatible, Makes]
  | dot => cases l <;> cases r <;> simp [compatible, Makes, eq_comm]
  | outer => cases l <;> cases r <;> simp [compatible, Makes]
  | matmul => cases l <;> cases r <;> simp [compatible, Makes, eq_comm]

theorem Makes.category (h : k.Makes l r s) (hc : k.category l.category r.category = some c) :
    s.category = c := by
  cases k with
  | cwise op =>
    obtain ⟨rfl, rfl⟩ := h
    simpa [BinaryKernel.category] using hc
  | broadcast op =>
    obtain ⟨rfl, rfl⟩ := h
    cases s <;> simp_all [BinaryKernel.category, Shape.category]
  | broadcastLeft op =>
    obtain ⟨rfl, rfl⟩ := h
    cases s <;> simp_all [BinaryKernel.category, Shape.category]
  | dot =>
    obtain ⟨n, rfl, rfl, rfl⟩ := h
    exact Option.some.inj hc
  | outer =>
    obtain ⟨m, n, rfl, rfl, rfl⟩ := h
    exact Option.some.inj hc
  | matmul =>
    obtain ⟨m, k, rfl, ⟨rfl, rfl⟩ | ⟨n, rfl, rfl⟩⟩ := h <;> exact Option.some.inj hc

theorem compatible_iff_joins (hc : k.category l.category r.category = some c) :
    k.compatible l r ↔ k.Joins l.dims r.dims := by
  cases k with
  | cwise op => cases l <;> cases r <;> simp_all [compatible, Joins, Shape.dims, category]
  | broadcast op => cases l <;> cases r <;> simp_all [compatible, Joins, Shape.category, category]
  | broadcastLeft op =>
    cases l <;> cases r <;> simp_all [compatible, Joins, Shape.category, category]
  | dot =>
    cases l <;> cases r <;>
      simp_all [compatible, Joins, Shape.dims, Shape.category, category]
  | outer => cases l <;> cases r <;> simp_all [compatible, Joins, Shape.category, category]
  | matmul =>
    cases l <;> cases r <;>
      simp_all [compatible, Joins, Shape.dims, Shape.category, category]

end BinaryKernel

namespace Value

variable {K : Type}

theorem size_of_scalar {v : Value K} (h : v.shape = .scalar) : v.size = 1 := by
  rw [size, h]
  rfl

variable [Zero K]

theorem shape_of_zipWith {f : K → K → K} {a b v : Value K} (h : a.zipWith f b = some v) :
    a.shape = b.shape ∧ v.shape = a.shape := by
  unfold zipWith at h
  split at h
  · rename_i hs
    cases h
    exact ⟨hs, rfl⟩
  · cases h

theorem zipWith_of_shape (f : K → K → K) {a b : Value K} (h : a.shape = b.shape) :
    a.zipWith f b = some (.ofFn a.shape fun i => f (a.entry i) (b.entry i)) := if_pos h

end Value

variable {K : Type} [Zero K]

namespace Jacobian

theorem ofElements_fits (v : Value K) : (ofElements v).Fits v.size v.size := by
  unfold ofElements
  split
  · exact rfl
  · exact ⟨v.size_entries, v.size_entries⟩

end Jacobian

namespace UnaryKernel

variable [Add K] [Mul K] [NatCast K] [Calculus K]

@[simp] theorem shape_eval (k : UnaryKernel) (x : Value K) :
    (k.eval x).shape = k.shape x.shape := by
  cases k <;> rfl

variable [One K]

theorem jacobian_fits (k : UnaryKernel) (x : Value K) :
    (k.jacobian x).Fits (k.eval x).size x.size := by
  cases k with
  | map op => exact Jacobian.ofElements_fits (.ofFn x.shape _)
  | sum => exact ⟨rfl, Array.size_ofFn⟩
  | mean => exact ⟨rfl, Array.size_ofFn⟩
  | norm => exact ⟨rfl, Array.size_ofFn⟩
  | squaredNorm => exact ⟨rfl, Array.size_ofFn⟩

end UnaryKernel

namespace BinaryKernel

variable [Calculus K]

theorem partialLeft_fits {k : BinaryKernel} {x y : Value K} {s : Shape}
    (h : k.Makes x.shape y.shape s) :
    ∃ j, k.partialLeft x y = some j ∧ j.Fits s.size x.size := by
  cases k with
  | cwise op =>
    obtain ⟨hs, rfl⟩ := h
    have hz := Value.zipWith_of_shape (Calculus.binary op).dLeft hs
    exact ⟨_, by rw [partialLeft, hz]; rfl, Jacobian.ofElements_fits (.ofFn x.shape _)⟩
  | broadcast op =>
    obtain ⟨hy, rfl⟩ := h
    exact ⟨_, if_pos hy, Jacobian.ofElements_fits (x.map _)⟩
  | broadcastLeft op =>
    obtain ⟨hx, rfl⟩ := h
    exact ⟨_, if_pos hx, (y.map _).size_entries, Value.size_of_scalar hx⟩
  | dot =>
    obtain ⟨n, hx, hy, rfl⟩ := h
    refine ⟨.row y.entries, by simp only [partialLeft, hx, hy], rfl, ?_⟩
    rw [y.size_entries, Value.size, hx, hy]
  | outer =>
    obtain ⟨m, n, hx, hy, rfl⟩ := h
    refine ⟨_, by simp only [partialLeft, hx, hy]; rfl, ?_⟩
    rw [Value.size, hx]
    exact ⟨rfl, rfl⟩
  | matmul =>
    obtain ⟨m, t, hx, ⟨hy, rfl⟩ | ⟨n, hy, rfl⟩⟩ := h
    · refine ⟨_, by simp only [partialLeft, hx, hy]; exact if_pos (.inr (Nat.le_refl t)), ?_⟩
      rw [Value.size, hx]
      exact ⟨rfl, rfl⟩
    · refine ⟨_, by simp only [partialLeft, hx, hy]; exact if_pos (.inr (.inr (Nat.le_refl t))), ?_⟩
      rw [Value.size, hx]
      exact ⟨rfl, rfl⟩

theorem partialRight_fits {k : BinaryKernel} {x y : Value K} {s : Shape}
    (h : k.Makes x.shape y.shape s) :
    ∃ j, k.partialRight x y = some j ∧ j.Fits s.size y.size := by
  cases k with
  | cwise op =>
    obtain ⟨hs, rfl⟩ := h
    have hz := Value.zipWith_of_shape (Calculus.binary op).dRight hs
    refine ⟨_, by rw [partialRight, hz]; rfl, ?_⟩
    rw [Value.size, ← hs]
    exact Jacobian.ofElements_fits (.ofFn x.shape _)
  | broadcast op =>
    obtain ⟨hy, rfl⟩ := h
    exact ⟨_, if_pos hy, (x.map _).size_entries, Value.size_of_scalar hy⟩
  | broadcastLeft op =>
    obtain ⟨hx, rfl⟩ := h
    exact ⟨_, if_pos hx, Jacobian.ofElements_fits (y.map _)⟩
  | dot =>
    obtain ⟨n, hx, hy, rfl⟩ := h
    refine ⟨.row x.entries, by simp only [partialRight, hx, hy], rfl, ?_⟩
    rw [x.size_entries, Value.size, hx, hy]
  | outer =>
    obtain ⟨m, n, hx, hy, rfl⟩ := h
    refine ⟨_, by simp only [partialRight, hx, hy]; rfl, ?_⟩
    rw [Value.size, hy]
    exact ⟨rfl, rfl⟩
  | matmul =>
    obtain ⟨m, t, hx, ⟨hy, rfl⟩ | ⟨n, hy, rfl⟩⟩ := h
    · refine ⟨_, by simp only [partialRight, hx, hy]; rfl, ?_⟩
      rw [Value.size, hy]
      exact ⟨rfl, rfl⟩
    · refine ⟨_, by simp only [partialRight, hx, hy]; rfl, ?_⟩
      rw [Value.size, hy]
      exact ⟨rfl, rfl⟩

variable [Add K] [Mul K] [MulAdd K] [Capacity K]

theorem shape_of_eval {k : BinaryKernel} {x y v : Value K} (h : k.eval x y = some v) :
    k.Makes x.shape y.shape v.shape := by
  cases k with
  | cwise op => exact Value.shape_of_zipWith h
  | broadcast op =>
    simp only [eval] at h
    split at h
    · cases h
      exact ⟨by assumption, rfl⟩
    · cases h
  | broadcastLeft op =>
    simp only [eval] at h
    split at h
    · cases h
      exact ⟨by assumption, rfl⟩
    · cases h
  | dot =>
    simp only [eval] at h
    split at h
    · rename_i m n hx hy
      split at h
      · rename_i hmn
        subst hmn
        cases h
        exact ⟨m, hx, hy, rfl⟩
      · cases h
    · cases h
  | outer =>
    simp only [eval] at h
    split at h
    · rename_i m n hx hy
      split at h
      · cases h
        exact ⟨m, n, hx, hy, rfl⟩
      · cases h
    · cases h
  | matmul =>
    simp only [eval] at h
    split at h
    · rename_i m s n hx hy
      split at h
      · rename_i hsn
        obtain rfl := hsn.1
        cases h
        exact ⟨m, s, hx, .inl ⟨hy, rfl⟩⟩
      · cases h
    · rename_i m s t n hx hy
      split at h
      · rename_i hst
        obtain rfl := hst.1
        cases h
        exact ⟨m, s, hx, .inr ⟨n, hy, rfl⟩⟩
      · cases h
    · cases h

theorem eval_of_makes {k : BinaryKernel} {x y : Value K} {s : Shape}
    (h : k.Makes x.shape y.shape s) : Delivers (Roomy K) (·.shape = s) (k.eval x y) := by
  cases k with
  | cwise op =>
    obtain ⟨hs, rfl⟩ := h
    rw [eval, Value.zipWith_of_shape _ hs]
    exact .some rfl
  | broadcast op => exact .ite (fun _ => h.1) h.2.symm
  | broadcastLeft op => exact .ite (fun _ => h.1) h.2.symm
  | dot =>
    obtain ⟨n, hx, hy, rfl⟩ := h
    simp only [eval, hx, hy]
    exact .ite (fun _ => trivial) rfl
  | outer =>
    obtain ⟨m, n, hx, hy, rfl⟩ := h
    simp only [eval, hx, hy]
    exact .ite (fun hroom => hroom _) rfl
  | matmul =>
    obtain ⟨m, t, hx, ⟨hy, rfl⟩ | ⟨n, hy, rfl⟩⟩ := h
    · simp only [eval, hx, hy]
      exact .ite (fun hroom => ⟨trivial, hroom _⟩) rfl
    · simp only [eval, hx, hy]
      exact .ite (fun hroom => ⟨trivial, hroom _⟩) rfl

end BinaryKernel

end GradientGraph
