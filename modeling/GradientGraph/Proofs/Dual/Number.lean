import GradientGraph.Proofs.Algebra.Sum
import GradientGraph.Proofs.Algebra.Rules
import Mathlib.Algebra.DualNumber
import Mathlib.Tactic.FieldSimp

/-!
# Dual numbers

A rule that gives a value and its derivatives extends to dual numbers: the
infinitesimal part moves by the derivatives at the standard parts. Over a field
the operators of arithmetic extend to those of the ring of dual numbers.
-/

set_option autoImplicit false

namespace GradientGraph
noncomputable section

open Finset TrivSqZeroExt DualNumber

section Extension

variable {K : Type} [CommRing K]

/-- The rule on dual numbers. Its own derivatives are taken at the standard parts. -/
def BinaryRule.extend (r : BinaryRule K) : BinaryRule K[ε] where
  eval a b := inl (r.eval a.fst b.fst) +
    inr (r.dLeft a.fst b.fst * a.snd + r.dRight a.fst b.fst * b.snd)
  dLeft a b := inl (r.dLeft a.fst b.fst)
  dRight a b := inl (r.dRight a.fst b.fst)

def UnaryRule.extend (r : UnaryRule K) : UnaryRule K[ε] where
  eval a := inl (r.eval a.fst) + inr (r.deriv a.fst (r.eval a.fst) * a.snd)
  deriv a v := inl (r.deriv a.fst v.fst)

instance dualCalculus [Calculus K] : Calculus K[ε] where
  binary op := (Calculus.binary op).extend
  unary op := (Calculus.unary op).extend

@[simp] theorem BinaryRule.fst_extend (r : BinaryRule K) (a b : K[ε]) :
    (r.extend.eval a b).fst = r.eval a.fst b.fst := by simp [extend]

@[simp] theorem BinaryRule.snd_extend (r : BinaryRule K) (a b : K[ε]) :
    (r.extend.eval a b).snd = r.dLeft a.fst b.fst * a.snd + r.dRight a.fst b.fst * b.snd := by
  simp [extend]

@[simp] theorem UnaryRule.fst_extend (r : UnaryRule K) (a : K[ε]) :
    (r.extend.eval a).fst = r.eval a.fst := by simp [extend]

@[simp] theorem UnaryRule.snd_extend (r : UnaryRule K) (a : K[ε]) :
    (r.extend.eval a).snd = r.deriv a.fst (r.eval a.fst) * a.snd := by simp [extend]

theorem fst_laneTotal (n : Nat) (f : Nat → K[ε]) :
    (laneTotal n f).fst = laneTotal n fun i => (f i).fst := by
  rw [laneTotal_eq_sum, laneTotal_eq_sum, fst_sum]

theorem snd_laneTotal (n : Nat) (f : Nat → K[ε]) :
    (laneTotal n f).snd = ∑ i ∈ range n, (f i).snd := by
  rw [laneTotal_eq_sum, snd_sum]

end Extension

section Field

variable {K : Type} [Field K] [LT K] [DecidableLT K] [Elementary K]

theorem extend_add (a b : K[ε]) : (Calculus.binary .add).eval a b = a + b := by
  have hsnd : ((Calculus.binary .add).eval a b).snd = 1 * a.snd + 1 * b.snd :=
    BinaryRule.snd_extend _ a b
  ext
  · exact BinaryRule.fst_extend _ a b
  · rw [hsnd, one_mul, one_mul, snd_add]

theorem extend_sub (a b : K[ε]) : (Calculus.binary .sub).eval a b = a - b := by
  have hsnd : ((Calculus.binary .sub).eval a b).snd = 1 * a.snd + -1 * b.snd :=
    BinaryRule.snd_extend _ a b
  ext
  · exact BinaryRule.fst_extend _ a b
  · rw [hsnd, one_mul, neg_one_mul, snd_sub, sub_eq_add_neg]

theorem extend_mul (a b : K[ε]) : (Calculus.binary .mul).eval a b = a * b := by
  have hsnd : ((Calculus.binary .mul).eval a b).snd = b.fst * a.snd + a.fst * b.snd :=
    BinaryRule.snd_extend _ a b
  ext
  · exact BinaryRule.fst_extend _ a b
  · rw [hsnd, DualNumber.snd_mul, mul_comm b.fst, add_comm]

theorem extend_div (a : K[ε]) {b : K[ε]} (hb : b.fst ≠ 0) :
    (Calculus.binary .div).eval a b * b = a := by
  have hfst : ((Calculus.binary .div).eval a b).fst = a.fst / b.fst :=
    BinaryRule.fst_extend _ a b
  have hsnd : ((Calculus.binary .div).eval a b).snd =
      1 / b.fst * a.snd + -a.fst / (b.fst * b.fst) * b.snd := BinaryRule.snd_extend _ a b
  ext
  · rw [fst_mul, hfst, div_mul_cancel₀ _ hb]
  · rw [DualNumber.snd_mul, hfst, hsnd]
    field_simp
    ring

theorem extend_neg (a : K[ε]) : (Calculus.unary .neg).eval a = -a := by
  have hsnd : ((Calculus.unary .neg).eval a).snd = -1 * a.snd := UnaryRule.snd_extend _ a
  ext
  · exact UnaryRule.fst_extend _ a
  · rw [hsnd, neg_one_mul, snd_neg]

theorem extend_square (a : K[ε]) : (Calculus.unary .square).eval a = a * a := by
  have hsnd : ((Calculus.unary .square).eval a).snd = ((2 : Nat) : K) * a.fst * a.snd :=
    UnaryRule.snd_extend _ a
  ext
  · exact UnaryRule.fst_extend _ a
  · rw [hsnd, DualNumber.snd_mul]
    push_cast
    ring

end Field

end
end GradientGraph
