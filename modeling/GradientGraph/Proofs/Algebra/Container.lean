import GradientGraph.Proofs.Algebra.Product

/-!
# Exact derivative containers

Over exact scalars both kinds of derivative compute with the matrices that they
stand for, as long as the dimensions fit: a matrix stands for itself, a scalar
for the matrix of one entry. A scalar derivative serves values of one element
only; a matrix serves all sizes.
-/

set_option autoImplicit false

namespace GradientGraph
noncomputable section

class Tabulated (K : outParam Type) (D : Type) where
  entry : D → (row col : Nat) → K

instance scalarTabulated {K : Type} : Tabulated K K where
  entry x _ _ := x

instance matTabulated {K : Type} [Zero K] : Tabulated K (Mat K) where
  entry := Mat.entry

variable {K D : Type} [CommRing K]

namespace Differential

variable [Differential K D] [Tabulated K D]

def toLinear (d : D) : Linear K :=
  .ofEntries (dims (K := K) d).1 (dims (K := K) d).2 (Tabulated.entry d)

/-- The map that a derivative stands for if there is one, and zero otherwise. -/
def reading (d : Option D) : Linear K := (d.map toLinear).getD 0

@[simp] theorem reading_none : reading (none : Option D) = 0 := rfl

@[simp] theorem reading_some (d : D) : reading (some d) = toLinear d := rfl

theorem toLinear_mul_keep {d : D} {r c : Nat} (h : dims (K := K) d = (r, c)) :
    toLinear d * .keep c = toLinear d := by
  rw [toLinear, h]
  exact Linear.ofEntries_mul_keep r c _

theorem keep_mul_toLinear {d : D} {r c : Nat} (h : dims (K := K) d = (r, c)) :
    .keep r * toLinear d = toLinear d := by
  rw [toLinear, h]
  exact Linear.keep_mul_ofEntries r c _

end Differential

open GradientGraph.Differential in
/-- Containers whose operations are those of their matrices, for values of the
sizes that they serve. -/
class ExactDifferential (K : outParam Type) (D : Type) [CommRing K] [Differential K D]
    [Tabulated K D] where
  Serves : Nat → Prop
  serves_one : Serves 1
  serves_dims : ∀ d : D, Serves (dims (K := K) d).1 ∧ Serves (dims (K := K) d).2
  zeros_exact : ∀ {r c : Nat}, Serves r → Serves c →
    ∃ d : D, zeros (K := K) r c = some d ∧ dims (K := K) d = (r, c) ∧ toLinear d = 0
  identity_exact : ∀ {n : Nat}, Serves n →
    ∃ d : D, identity (K := K) n = some d ∧ dims (K := K) d = (n, n) ∧ toLinear d = .keep n
  accumulate_exact : ∀ {a b : D}, dims (K := K) b = dims (K := K) a →
    ∃ d : D, accumulate (K := K) a b = some d ∧ dims (K := K) d = dims (K := K) a ∧
      toLinear d = toLinear a + toLinear b
  pushThrough_exact : ∀ {j : Jacobian K} {t : D} {r c k : Nat}, dims (K := K) t = (c, k) →
    j.Fits r c → Serves r →
    ∃ d : D, pushThrough j t = some d ∧ dims (K := K) d = (r, k) ∧
      toLinear d = j.toLinear c * toLinear t
  pullThrough_exact : ∀ {j : Jacobian K} {g : D} {m r c : Nat}, dims (K := K) g = (m, r) →
    j.Fits r c → Serves c →
    ∃ d : D, pullThrough g j = some d ∧ dims (K := K) d = (m, c) ∧
      toLinear d = toLinear g * j.toLinear c

namespace Jacobian

theorem head_exact {j : Jacobian K} (h : j.Fits 1 1) :
    ∃ c, j.head? = some c ∧ j.toLinear 1 = .ofEntries 1 1 fun _ _ => c := by
  have hp {p : Array K} (hp : p.size = 1) : p[0]? = some (p.getD 0 0) := by
    simp [hp]
  cases j with
  | scale c =>
    refine ⟨c, rfl, ?_⟩
    rw [toLinear, toMat, Mat.toLinear_ofFn]
    apply Linear.ofEntries_congr
    intro i j hi hj
    rw [if_pos (by omega)]
  | diagonal p =>
    refine ⟨_, hp h.1, ?_⟩
    rw [toLinear, toMat, Mat.toLinear_ofFn, h.1]
    apply Linear.ofEntries_congr
    intro i j hi hj
    obtain rfl : i = 0 := by omega
    obtain rfl : j = 0 := by omega
    rfl
  | column p =>
    refine ⟨_, hp h.1, ?_⟩
    rw [toLinear, toMat, Mat.ofColumn, Mat.toLinear_ofFn, h.1]
    apply Linear.ofEntries_congr
    intro i j hi hj
    obtain rfl : i = 0 := by omega
    rfl
  | row p =>
    refine ⟨_, hp h.2, ?_⟩
    rw [toLinear, toMat, Mat.ofRow, Mat.toLinear_tabulate, h.2]
    apply Linear.ofEntries_congr
    intro i j hi hj
    obtain rfl : j = 0 := by omega
    rfl
  | dense m =>
    obtain ⟨hr, hc⟩ := h
    have hm : m.entries[0]? = some (m.entry 0 0) := by
      have hsize : m.entries.size = 1 := by rw [m.size_entries, hr, hc]
      have hplace : m.order.place m.rows m.cols 0 0 = 0 := by
        cases m.order <;> simp [Order.place]
      rw [Mat.entry, if_pos (by omega), hplace]
      exact hp hsize
    refine ⟨_, hm, ?_⟩
    rw [toLinear, toMat, Mat.toLinear, hr, hc]
    apply Linear.ofEntries_congr
    intro i j hi hj
    obtain rfl : i = 0 := by omega
    obtain rfl : j = 0 := by omega
    rfl

end Jacobian

theorem toLinear_scalar (x : K) :
    Differential.toLinear x = Linear.ofEntries 1 1 fun _ _ => x := rfl

theorem ofEntries_one_mul (x y : K) :
    Linear.ofEntries 1 1 (fun _ _ => x) * Linear.ofEntries 1 1 (fun _ _ => y) =
      Linear.ofEntries 1 1 fun _ _ => x * y := by
  rw [Linear.ofEntries_mul]
  simp

instance scalarExact : ExactDifferential K K where
  Serves n := n = 1
  serves_one := rfl
  serves_dims _ := ⟨rfl, rfl⟩
  zeros_exact := by
    rintro _ _ rfl rfl
    exact ⟨0, rfl, rfl, Linear.ofEntries_zero 1 1⟩
  identity_exact := by
    rintro _ rfl
    refine ⟨1, rfl, rfl, ?_⟩
    rw [toLinear_scalar, Linear.keep]
    apply Linear.ofEntries_congr
    intro i j hi hj
    rw [if_pos ((Nat.lt_one_iff.mp hi).trans (Nat.lt_one_iff.mp hj).symm)]
  accumulate_exact _ := ⟨_, rfl, rfl, (Linear.ofEntries_add 1 1 _ _).symm⟩
  pushThrough_exact := by
    rintro j t _ c k ht hj rfl
    obtain ⟨rfl, rfl⟩ : 1 = c ∧ 1 = k := Prod.ext_iff.mp ht
    obtain ⟨x, hx, hlin⟩ := Jacobian.head_exact hj
    refine ⟨x * t, congrArg (Option.map (· * t)) hx, rfl, ?_⟩
    rw [hlin, toLinear_scalar, toLinear_scalar, ofEntries_one_mul]
  pullThrough_exact := by
    rintro j g m r _ hg hj rfl
    obtain ⟨rfl, rfl⟩ : 1 = m ∧ 1 = r := Prod.ext_iff.mp hg
    obtain ⟨x, hx, hlin⟩ := Jacobian.head_exact hj
    refine ⟨g * x, congrArg (Option.map (g * ·)) hx, rfl, ?_⟩
    rw [hlin, toLinear_scalar, toLinear_scalar, ofEntries_one_mul]

instance matExact : ExactDifferential K (Mat K) where
  Serves _ := True
  serves_one := trivial
  serves_dims _ := ⟨trivial, trivial⟩
  zeros_exact _ _ := ⟨_, rfl, rfl, (Mat.toLinear_ofFn _ _ _).trans (Linear.ofEntries_zero _ _)⟩
  identity_exact _ := ⟨_, rfl, rfl, Mat.toLinear_ofFn _ _ _⟩
  accumulate_exact := Mat.accumulate_exact
  pushThrough_exact := by
    rintro j t r c k ht hj _
    obtain ⟨rfl, rfl⟩ : t.rows = c ∧ t.cols = k := Prod.ext_iff.mp ht
    exact Mat.pushThrough_exact hj
  pullThrough_exact := by
    rintro j g m r c hg hj _
    obtain ⟨rfl, rfl⟩ : g.rows = m ∧ g.cols = r := Prod.ext_iff.mp hg
    exact Mat.pullThrough_exact hj

end
end GradientGraph
