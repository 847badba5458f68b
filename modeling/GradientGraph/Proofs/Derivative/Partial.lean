import GradientGraph.Proofs.Algebra.Container
import GradientGraph.Proofs.Algebra.KernelShape
import GradientGraph.Proofs.Graph.Visit

/-!
# Partial Jacobians of an expression

Over exact scalars the two traversals of an expression multiply by its partial
Jacobians: forward, the tangent is the sum over the variables of Jacobian times
tangent; backward, each variable receives gradient times Jacobian.
-/

set_option autoImplicit false

namespace GradientGraph
noncomputable section

open Finset

variable {K : Type} [CommRing K]

section Arriving

variable {D : Type} [Differential K D] [Tabulated K D]

/-- What of a list of gradients arrives at the variable `n`. -/
def arrived (n : NodeId) (ps : List (NodeId × D)) : Linear K :=
  ((ps.filter (·.1 = n)).map fun p => Differential.toLinear p.2).sum

theorem arrived_append (n : NodeId) (ps qs : List (NodeId × D)) :
    arrived n (ps ++ qs) = arrived n ps + (arrived n qs : Linear K) := by
  simp [arrived]

theorem arrived_cons (n : NodeId) (p : NodeId × D) (ps : List (NodeId × D)) :
    arrived n (p :: ps) =
      (if p.1 = n then Differential.toLinear p.2 else 0) + (arrived n ps : Linear K) := by
  by_cases h : p.1 = n <;> simp [arrived, h]

end Arriving

variable [Calculus K]

/-- The map of a partial derivative in an operand of `n` elements. -/
def along (j : Option (Jacobian K)) (n : Nat) : Linear K := (j.map (·.toLinear n)).getD 0

namespace Expression

/-- The Jacobian of the expression in the variable `n`, added up over all places
where it is read. -/
def partialIn (ρ : NodeId → Option (Value K)) (n : NodeId) : Expression K → Linear K
  | .literal _ => 0
  | .read _ m => if m = n then .keep (sizeUnder ρ n) else 0
  | .unary k a =>
    match a.valueUnder ρ with
    | some x => (k.jacobian x).toLinear x.size * a.partialIn ρ n
    | none => 0
  | .binary k l r =>
    match l.valueUnder ρ, r.valueUnder ρ with
    | some x, some y =>
      along (k.partialLeft x y) x.size * l.partialIn ρ n +
        along (k.partialRight x y) y.size * r.partialIn ρ n
    | _, _ => 0
  | .shared _ e => e.partialIn ρ n

inductive Yields (Serves : Nat → Prop) (ρ : NodeId → Option (Value K)) :
    Expression K → Value K → Prop
  | literal {v : Value K} : Serves v.size → Yields Serves ρ (.literal v) v
  | read {label : Label} {n : NodeId} {v : Value K} : ρ n = some v → Serves v.size →
      Yields Serves ρ (.read label n) v
  | unary {k : UnaryKernel} {a : Expression K} {x : Value K} : Yields Serves ρ a x →
      Serves (k.eval x).size → Yields Serves ρ (.unary k a) (k.eval x)
  | binary {k : BinaryKernel} {l r : Expression K} {x y v : Value K} : Yields Serves ρ l x →
      Yields Serves ρ r y → k.eval x y = some v → Serves v.size →
      Yields Serves ρ (.binary k l r) v
  | shared {label : Label} {e : Expression K} {v : Value K} : Yields Serves ρ e v →
      Yields Serves ρ (.shared label e) v

variable {Serves : Nat → Prop} {ρ : NodeId → Option (Value K)} {e : Expression K} {v : Value K}

theorem Yields.valueUnder_eq (h : e.Yields Serves ρ v) : e.valueUnder ρ = some v := by
  induction h with
  | literal => rfl
  | read hv => exact hv
  | unary _ _ ih => rw [valueUnder, ih, Option.map_some]
  | binary _ _ hv _ ihl ihr =>
    rw [valueUnder, ihl, ihr]
    exact hv
  | shared _ ih => exact ih

theorem Yields.serves (h : e.Yields Serves ρ v) : Serves v.size := by
  induction h with
  | literal hs => exact hs
  | read _ hs => exact hs
  | unary _ hs => exact hs
  | binary _ _ _ hs => exact hs
  | shared _ ih => exact ih

theorem yields_of_valueUnder (hall : ∀ n, Serves n) (h : e.valueUnder ρ = some v) :
    e.Yields Serves ρ v := by
  induction e generalizing v with
  | literal w =>
    cases h
    exact .literal (hall _)
  | read label n => exact .read h (hall _)
  | unary k a ih =>
    obtain ⟨x, hx, rfl⟩ := Option.map_eq_some_iff.mp h
    exact .unary (ih hx) (hall _)
  | binary k l r ihl ihr =>
    obtain ⟨x, hx, h⟩ := Option.bind_eq_some_iff.mp h
    obtain ⟨y, hy, h⟩ := Option.bind_eq_some_iff.mp h
    exact .binary (ihl hx) (ihr hy) h (hall _)
  | shared label e ih => exact .shared (ih h)

theorem partialIn_eq_zero {n : NodeId} (h : n ∉ e.reads) : e.partialIn ρ n = 0 := by
  induction e with
  | literal => rfl
  | read label m => exact if_neg (by simpa [reads, eq_comm] using h)
  | unary k a ih =>
    rw [partialIn]
    split
    · rw [ih h, mul_zero]
    · rfl
  | binary k l r ihl ihr =>
    simp only [reads, List.mem_append, not_or] at h
    rw [partialIn]
    split
    · rw [ihl h.1, ihr h.2, mul_zero, mul_zero, add_zero]
    · rfl
  | shared label e ih => exact ih h

section Sums

variable (S : Finset NodeId) (τ : NodeId → Linear K)

theorem sum_partialIn_read {label : Label} {n : NodeId} (hn : n ∈ S) :
    ∑ m ∈ S, (read label n).partialIn ρ m * τ m = .keep (sizeUnder ρ n) * τ n := by
  rw [sum_eq_single n]
  · rw [partialIn, if_pos rfl]
  · intro m _ hm
    rw [partialIn, if_neg (Ne.symm hm), zero_mul]
  · intro h
    exact absurd hn h

theorem sum_partialIn_unary {k : UnaryKernel} {a : Expression K} {x : Value K}
    (ha : a.valueUnder ρ = some x) :
    ∑ n ∈ S, (unary k a).partialIn ρ n * τ n =
      (k.jacobian x).toLinear x.size * ∑ n ∈ S, a.partialIn ρ n * τ n := by
  simp only [partialIn, ha, mul_sum, mul_assoc]

theorem sum_partialIn_binary {k : BinaryKernel} {l r : Expression K} {x y : Value K}
    (hl : l.valueUnder ρ = some x) (hr : r.valueUnder ρ = some y) :
    ∑ n ∈ S, (binary k l r).partialIn ρ n * τ n =
      along (k.partialLeft x y) x.size * ∑ n ∈ S, l.partialIn ρ n * τ n +
        along (k.partialRight x y) y.size * ∑ n ∈ S, r.partialIn ρ n * τ n := by
  simp only [partialIn, hl, hr, add_mul, mul_assoc, sum_add_distrib, mul_sum]

end Sums

end Expression

section Containers

open GradientGraph.Differential ExactDifferential

variable {D : Type} [Differential K D] [Tabulated K D] [ExactDifferential K D]

theorem BinaryKernel.pushForward_exact {k : BinaryKernel} {x y v : Value K}
    (h : k.eval x y = some v) (hv : Serves (D := D) v.size) {w : Nat} {s t : Option D}
    (hs : ∀ d, s = some d → dims (K := K) d = (x.size, w))
    (ht : ∀ d, t = some d → dims (K := K) d = (y.size, w)) :
    ∃ u, k.pushForward x y s t = some u ∧ (∀ d, u = some d → dims (K := K) d = (v.size, w)) ∧
      reading u = along (k.partialLeft x y) x.size * reading s +
        along (k.partialRight x y) y.size * reading t := by
  have hs := shape_of_eval h
  obtain ⟨i, hi, (hil : i.Fits v.size x.size)⟩ := partialLeft_fits hs
  obtain ⟨j, hj, (hjr : j.Fits v.size y.size)⟩ := partialRight_fits hs
  rw [hi, hj]
  change ∃ u, _ ∧ _ ∧ reading u = i.toLinear x.size * reading s + j.toLinear y.size * reading t
  cases s with
  | none =>
    rw [reading_none, mul_zero, zero_add]
    cases t with
    | none => exact ⟨none, rfl, by simp, by rw [reading_none, mul_zero]⟩
    | some t =>
      obtain ⟨d, hd, hdims, hlin⟩ := pushThrough_exact (ht t rfl) hjr hv
      refine ⟨some d, ?_, by simpa using hdims, hlin⟩
      simp only [pushForward, hj, Option.bind_eq_bind, Option.bind_some, hd]
      rfl
  | some s =>
    obtain ⟨c, hc, hcdims, hclin⟩ := pushThrough_exact (hs s rfl) hil hv
    cases t with
    | none =>
      refine ⟨some c, ?_, by simpa using hcdims, ?_⟩
      · simp only [pushForward, hi, Option.bind_eq_bind, Option.bind_some, hc]
        rfl
      · rw [reading_none, mul_zero, add_zero]
        exact hclin
    | some t =>
      obtain ⟨d, hd, hddims, hdlin⟩ := pushThrough_exact (ht t rfl) hjr hv
      obtain ⟨u, hu, hudims, hulin⟩ := accumulate_exact (hddims.trans hcdims.symm)
      refine ⟨some u, ?_, by simpa [hcdims] using hudims, ?_⟩
      · simp only [pushForward, hi, hj, Option.bind_eq_bind, Option.bind_some, hc, hd, hu]
        rfl
      · rw [reading_some, hulin, hclin, hdlin]
        rfl

namespace Expression

variable {ρ : NodeId → Option (Value K)} {e : Expression K} {v : Value K}

/-- The tangent of an expression is the sum of its partial Jacobians times the
tangents of the variables. -/
theorem tangentUnder_exact (S : Finset NodeId) {w : Nat} {τ : NodeId → Option D}
    (h : e.Yields (Serves (D := D)) ρ v)
    (hτ : ∀ n ∈ e.reads, ∀ d, τ n = some d → dims (K := K) d = (sizeUnder ρ n, w))
    (hS : ∀ n ∈ e.reads, n ∈ S) :
    ∃ t, e.tangentUnder ρ τ = some t ∧ (∀ d, t = some d → dims (K := K) d = (v.size, w)) ∧
      reading t = ∑ n ∈ S, e.partialIn ρ n * reading (τ n) := by
  induction h with
  | literal hs => exact ⟨none, rfl, by simp, by simp [partialIn]⟩
  | @read label n v hv hs =>
    have hsize : sizeUnder ρ n = v.size := by simp [sizeUnder, hv]
    refine ⟨τ n, by simp [tangentUnder, hv], ?_, ?_⟩
    · rw [← hsize]
      exact hτ n (by simp [reads])
    · rw [sum_partialIn_read S (fun n => reading (τ n)) (hS n (by simp [reads]))]
      cases ht : τ n with
      | none => rw [reading_none, mul_zero]
      | some d => exact (keep_mul_toLinear (hτ n (by simp [reads]) d ht)).symm
  | @unary k a x ha hs ih =>
    obtain ⟨t, ht, hdims, hlin⟩ := ih hτ hS
    rw [sum_partialIn_unary S (fun n => reading (τ n)) ha.valueUnder_eq, ← hlin]
    cases t with
    | none =>
      refine ⟨none, by simp [tangentUnder, ht], by simp, ?_⟩
      rw [reading_none, mul_zero]
    | some t =>
      obtain ⟨d, hd, hddims, hdlin⟩ := pushThrough_exact (hdims t rfl) (k.jacobian_fits x) hs
      refine ⟨some d, ?_, by simpa using hddims, hdlin⟩
      simp [tangentUnder, ht, ha.valueUnder_eq, hd]
  | @binary k l r x y v hl hr hv hs ihl ihr =>
    have hτl : ∀ n ∈ l.reads, _ := fun n hn => hτ n (by simp [reads, hn])
    have hτr : ∀ n ∈ r.reads, _ := fun n hn => hτ n (by simp [reads, hn])
    obtain ⟨s, hsl, hsdims, hslin⟩ := ihl hτl fun n hn => hS n (by simp [reads, hn])
    obtain ⟨t, htr, htdims, htlin⟩ := ihr hτr fun n hn => hS n (by simp [reads, hn])
    obtain ⟨u, hu, hudims, hulin⟩ := BinaryKernel.pushForward_exact hv hs hsdims htdims
    rw [sum_partialIn_binary S (fun n => reading (τ n)) hl.valueUnder_eq hr.valueUnder_eq,
      ← hslin, ← htlin]
    refine ⟨u, ?_, hudims, hulin⟩
    simp only [tangentUnder, hsl, htr, hl.valueUnder_eq, hr.valueUnder_eq,
      Option.bind_eq_bind, Option.bind_some]
    cases s with
    | none =>
      cases t with
      | none => exact hu
      | some t => exact hu
    | some s => exact hu
  | shared h ih => exact ih hτ hS

theorem sideFlows_exact {a : Expression K} {x : Value K} {j : Option (Jacobian K)} {d : D}
    {m r : Nat} (hd : dims (K := K) d = (m, r)) (ha : a.Yields (Serves (D := D)) ρ x)
    (hj : ∃ i, j = some i ∧ i.Fits r x.size)
    (ih : ∀ d : D, dims (K := K) d = (m, x.size) →
      ∃ ps, a.flows ρ d = some ps ∧
        (∀ p ∈ ps, p.1 ∈ a.reads ∧ dims (K := K) p.2 = (m, sizeUnder ρ p.1)) ∧
        ∀ n, arrived n ps = toLinear d * a.partialIn ρ n) :
    ∃ ps, sideFlows a.isConstant j d (a.flows ρ) = some ps ∧
      (∀ p ∈ ps, p.1 ∈ a.reads ∧ dims (K := K) p.2 = (m, sizeUnder ρ p.1)) ∧
      ∀ n, arrived n ps = toLinear d * (along j x.size * a.partialIn ρ n) := by
  -- a constant is sent nothing, and reads nothing that could receive it
  by_cases hc : a.isConstant
  · refine ⟨[], if_pos hc, by simp, ?_⟩
    intro n
    rw [partialIn_eq_zero (by simp [isConstant_iff_reads.mp hc]), mul_zero, mul_zero]
    rfl
  · obtain ⟨i, rfl, hi⟩ := hj
    obtain ⟨d', hd', hdims, hlin⟩ := pullThrough_exact hd hi ha.serves
    obtain ⟨ps, hps, hmem, harrived⟩ := ih d' hdims
    refine ⟨ps, ?_, hmem, ?_⟩
    · rw [sideFlows, if_neg hc, Option.bind_some, hd', Option.bind_some, hps]
    · intro n
      rw [harrived, hlin, mul_assoc]
      rfl

/-- Each variable receives the gradient times the partial Jacobian in it. -/
theorem flows_exact (h : e.Yields (Serves (D := D)) ρ v) {d : D} {m : Nat}
    (hd : dims (K := K) d = (m, v.size)) :
    ∃ ps, e.flows ρ d = some ps ∧
      (∀ p ∈ ps, p.1 ∈ e.reads ∧ dims (K := K) p.2 = (m, sizeUnder ρ p.1)) ∧
      ∀ n, arrived n ps = toLinear d * e.partialIn ρ n := by
  induction h generalizing d with
  | literal => exact ⟨[], rfl, by simp, by simp [arrived, partialIn]⟩
  | @read label n v hv _ =>
    have hsize : sizeUnder ρ n = v.size := by simp [sizeUnder, hv]
    refine ⟨[(n, d)], by simp [flows, hv], by simp [reads, hsize, hd], ?_⟩
    intro k
    by_cases hk : n = k
    · subst hk
      simp [arrived, partialIn, hsize, toLinear_mul_keep hd]
    · simp [arrived, partialIn, hk]
  | @unary k a x ha _ ih =>
    obtain ⟨ps, hps, hmem, harrived⟩ :=
      sideFlows_exact hd ha ⟨_, rfl, k.jacobian_fits x⟩ fun d hd => ih hd
    have hpartial (n : NodeId) : (unary k a).partialIn ρ n =
        along (some (k.jacobian x)) x.size * a.partialIn ρ n := by
      simp only [partialIn, ha.valueUnder_eq]
      rfl
    refine ⟨ps, ?_, hmem, fun n => by rw [hpartial, harrived]⟩
    rw [flows, ha.valueUnder_eq]
    by_cases hc : a.isConstant
    · rw [if_pos hc, ← hps, sideFlows, if_pos hc]
    · rw [if_neg hc]
      exact hps
  | @binary k l r x y v hl hr hv _ ihl ihr =>
    have hs := BinaryKernel.shape_of_eval hv
    obtain ⟨ps, hps, hpmem, hparrived⟩ :=
      sideFlows_exact hd hl (BinaryKernel.partialLeft_fits hs) fun d hd => ihl hd
    obtain ⟨qs, hqs, hqmem, hqarrived⟩ :=
      sideFlows_exact hd hr (BinaryKernel.partialRight_fits hs) fun d hd => ihr hd
    refine ⟨ps ++ qs, ?_, ?_, ?_⟩
    · rw [flows, hl.valueUnder_eq, hr.valueUnder_eq]
      by_cases hc : (l.isConstant && r.isConstant) = true
      · obtain ⟨hlc, hrc⟩ := Bool.and_eq_true_iff.mp hc
        rw [sideFlows, if_pos hlc] at hps
        rw [sideFlows, if_pos hrc] at hqs
        rw [if_pos hc]
        cases hps
        cases hqs
        rfl
      · rw [if_neg hc]
        simp only [Option.bind_eq_bind, Option.bind_some, hps, hqs]
        rfl
    · intro p hp
      rcases List.mem_append.mp hp with hp | hp
      · exact ⟨by simp [reads, (hpmem p hp).1], (hpmem p hp).2⟩
      · exact ⟨by simp [reads, (hqmem p hp).1], (hqmem p hp).2⟩
    · intro n
      simp only [arrived_append, hparrived, hqarrived, partialIn, hl.valueUnder_eq,
        hr.valueUnder_eq]
      rw [mul_add]
  | shared _ ih => exact ih hd

end Expression

end Containers

end
end GradientGraph
