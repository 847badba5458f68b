import GradientGraph.Proofs.Algebra.Dims
import GradientGraph.Proofs.Plan.Detour

/-!
# The seeded forward pass worked out

A forward pass from one source gives seeds to the sources, works off the plan by one rule
and fills what is left with zeros. The zeros are as wide as the source has elements. So the
pass comes to its end exactly if there is room for the seeds and the zeros and no tangent
fails to get through, and on parallel plans it leaves the same at both targets.
-/

set_option autoImplicit false

namespace GradientGraph

/-- Containers that, asked for zeros as wide as one of their seeds, give those of the width
that was asked for when the seed was made. -/
class SteadyWidths (K : outParam Type) (D : Type) [Differential K D] : Prop where
  zeros_width : ∀ {r c : Nat} {d : D}, Differential.zeros (K := K) r c = some d →
    ∀ n, Differential.zeros (K := K) (D := D) n (Differential.dims d).2 =
      Differential.zeros (K := K) n c
  identity_width : ∀ {c : Nat} {d : D}, Differential.identity (K := K) c = some d →
    ∀ n, Differential.zeros (K := K) (D := D) n (Differential.dims d).2 =
      Differential.zeros (K := K) n c

section Containers

variable {K : Type} [Zero K] [One K] [Add K] [Mul K]

instance scalarSteady : SteadyWidths K K where
  zeros_width _ _ := rfl
  identity_width _ _ := rfl

instance matSteady [MulAdd K] [Capacity K] : SteadyWidths K (Mat K) where
  zeros_width {r c} d hd n := by
    obtain ⟨-, rfl⟩ := Prod.ext_iff.mp ((Mat.dims_zeros (K := K) r c).sound d hd)
    rfl
  identity_width {c} d hd n := by
    obtain ⟨-, rfl⟩ := Prod.ext_iff.mp ((Mat.dims_identity (K := K) c).sound d hd)
    rfl

end Containers

section Loops

variable {D : Type} {f : NodeId → Option D} {τ σ : NodeId → Option D}

theorem foldlM_each {h : NodeId → Option D → Option D}
    (hh : ∀ n x d, h n x = some d → h n (some d) = some d) (ns : List NodeId) :
    ns.foldlM (fun τ n => (h n (τ n)).map fun d => Function.update τ n (some d)) τ = some σ ↔
      (∀ n ∈ ns, (h n (τ n)).isSome) ∧ σ = fun n => if n ∈ ns then h n (τ n) else τ n := by
  induction ns generalizing τ with
  | nil => exact ⟨fun h => ⟨by simp, by simpa [eq_comm] using h⟩, fun h => by simp [h.2]⟩
  | cons m ns ih =>
    rw [List.foldlM_cons]
    cases hm : h m (τ m) with
    | none => simp [hm]
    | some d =>
      -- once `m` was worked on, all nodes are still given what they were to be given
      have hsame (n : NodeId) : h n (Function.update τ m (some d) n) = h n (τ n) := by
        by_cases hn : n = m
        · subst hn
          rw [Function.update_self, hm, hh n _ d hm]
        · rw [Function.update_of_ne hn]
      refine (ih (τ := Function.update τ m (some d))).trans ?_
      simp only [hsame]
      refine and_congr (by simp [hm]) (iff_of_eq (congrArg (σ = ·) ?_))
      funext n
      by_cases hn : n = m
      · subst hn
        by_cases hmem : n ∈ ns <;> simp [hmem, hm]
      · simp [hn]

theorem give_iff (ns : List NodeId) : ns.foldlM (giveStep f) τ = some σ ↔
    (∀ n ∈ ns, (f n).isSome) ∧ σ = fun n => if n ∈ ns then f n else τ n :=
  foldlM_each (h := fun n _ => f n) (fun _ _ _ h => h) ns

theorem fill_iff (ns : List NodeId) : ns.foldlM (fillStep f) τ = some σ ↔
    (∀ n ∈ ns, ((τ n).or (f n)).isSome) ∧ σ = fun n => if n ∈ ns then (τ n).or (f n) else τ n := by
  have hstep : fillStep f = fun τ n =>
      ((τ n).or (f n)).map fun d => Function.update τ n (some d) := by
    funext τ n
    rw [fillStep, giveStep]
    cases hn : τ n with
    | none => rfl
    | some d =>
      change some τ = some (Function.update τ n (some d))
      rw [← hn, Function.update_eq_self]
  rw [hstep]
  exact foldlM_each (h := fun n x => x.or (f n)) (fun _ _ _ _ => rfl) ns

end Loops

namespace Plan

section Seeds

variable {K D : Type} [Differential K D]

def seeded (p : Plan) (ρ : NodeId → Option (Value K)) (s : NodeId) (τ : NodeId → Option D) :
    NodeId → Option D := fun n => if n ∈ p.outer then sourceSeed ρ s n else τ n

def orZeros (ρ : NodeId → Option (Value K)) (s : NodeId) (τ : NodeId → Option D) (n : NodeId) :
    Option D := (τ n).or (Differential.zeros (sizeUnder ρ n) (sizeUnder ρ s))

variable [SteadyWidths K D] {p : Plan} {ρ : NodeId → Option (Value K)} {s n : NodeId}

theorem zeros_of_sourceSeed {d : D} (hd : sourceSeed ρ s n = some d) (r : Nat) :
    Differential.zeros (K := K) (D := D) r (Differential.dims d).2 =
      Differential.zeros r (sizeUnder ρ s) := by
  unfold sourceSeed at hd
  split at hd
  · exact SteadyWidths.identity_width hd r
  · exact SteadyWidths.zeros_width hd r

theorem zeros_widthUnder {τ : NodeId → Option D} (hs : s ∈ p.outer)
    (hseed : ∀ n ∈ p.outer, (sourceSeed ρ s n : Option D).isSome)
    (hτ : ∀ n ∈ p.outer, τ n = sourceSeed ρ s n) (r : Nat) :
    Differential.zeros (K := K) (D := D) r (p.widthUnder τ) =
      Differential.zeros r (sizeUnder ρ s) := by
  rw [widthUnder]
  cases hfind : p.outer.findSome? τ with
  | some d =>
    obtain ⟨n, hn, hd⟩ := List.exists_of_findSome?_eq_some hfind
    rw [hτ n hn] at hd
    exact zeros_of_sourceSeed hd r
  | none =>
    have hsome := hseed s hs
    rw [← hτ s hs, List.findSome?_eq_none_iff.mp hfind s hs] at hsome
    cases hsome

end Seeds

variable {K D : Type} [Zero K] [One K] [Add K] [Mul K] [MulAdd K] [Capacity K] [NatCast K]
  [Calculus K] [Differential K D] {ρ : NodeId → Option (Value K)}
  {φ : NodeId → Option (Formula K)}

/-- What a forward pass finds for a node: the tangent of its formula. -/
def tangentRule (ρ : NodeId → Option (Value K)) (φ : NodeId → Option (Formula K)) (n : NodeId)
    (τ : NodeId → Option D) : Option (Option D) :=
  match φ n with
  | none => some (τ n)
  | some a => a.expression.tangentUnder ρ τ

theorem tangentRule_eq {n : NodeId} {a : Formula K} (ha : φ n = some a) (τ : NodeId → Option D) :
    tangentRule ρ φ n τ = a.expression.tangentUnder ρ τ := by
  rw [tangentRule, ha]

theorem tangentRule_local : Local φ (tangentRule (D := D) ρ φ) := by
  intro n a ha σ τ h
  rw [tangentRule_eq ha, tangentRule_eq ha, Expression.tangentUnder_congr h]

theorem pushStep_eq_work : pushStep (D := D) ρ φ = workStep (tangentRule ρ φ) := by
  funext τ n
  rw [pushStep, workStep, tangentRule]
  cases φ n with
  | none =>
    change some τ = some (Function.update τ n (τ n))
    rw [Function.update_eq_self]
  | some a => rfl

def forwardAt (p : Plan) (ρ : NodeId → Option (Value K)) (φ : NodeId → Option (Formula K))
    (s : NodeId) (τ : NodeId → Option D) : Option (NodeId → Option D) :=
  (p.outer.foldlM (giveStep (sourceSeed ρ s)) τ).bind (p.forwardUnder ρ φ)

variable [SteadyWidths K D] {p q : Plan} {s u z z' : NodeId} {τ τ' υ : NodeId → Option D}

theorem forwardAt_iff (hs : s ∈ p.outer) : p.forwardAt ρ φ s τ = some τ' ↔
    (∀ n ∈ p.outer, (sourceSeed ρ s n : Option D).isSome) ∧
      ∃ σ, p.inner.foldlM (workStep (tangentRule ρ φ)) (p.seeded ρ s τ) = some σ ∧
        (∀ n ∈ p.order, (orZeros ρ s σ n).isSome) ∧
        τ' = fun n => if n ∈ p.order then orZeros ρ s σ n else σ n := by
  have hwidth (hseed : ∀ n ∈ p.outer, (sourceSeed ρ s n : Option D).isSome) :
      (fun n => Differential.zeros (K := K) (D := D) (sizeUnder ρ n)
        (p.widthUnder (p.seeded ρ s τ))) = fun n =>
      Differential.zeros (sizeUnder ρ n) (sizeUnder ρ s) := by
    funext n
    exact zeros_widthUnder hs hseed (fun n hn => if_pos hn) _
  constructor
  · intro h
    obtain ⟨τ₁, hgive, h⟩ := Option.bind_eq_some_iff.mp h
    obtain ⟨hseed, rfl⟩ := (give_iff _).mp hgive
    obtain ⟨σ, hσ, hfill⟩ := Option.bind_eq_some_iff.mp h
    rw [pushStep_eq_work] at hσ
    change p.order.foldlM (fillStep fun n => Differential.zeros (sizeUnder ρ n)
        (p.widthUnder (p.seeded ρ s τ))) σ = some τ' at hfill
    rw [hwidth hseed] at hfill
    exact ⟨hseed, σ, hσ, (fill_iff _).mp hfill⟩
  · rintro ⟨hseed, σ, hσ, hfill⟩
    have hgive : p.outer.foldlM (giveStep (sourceSeed ρ s)) τ = some (p.seeded ρ s τ) :=
      (give_iff _).mpr ⟨hseed, rfl⟩
    rw [forwardAt, hgive, Option.bind_some, forwardUnder, pushStep_eq_work, hσ, Option.bind_some,
      hwidth hseed]
    exact (fill_iff _).mpr hfill

namespace Parallel

variable {b b' : Formula K} (h : Parallel p q φ b b' u z z') (hp : p.Ordered φ) (hq : q.Ordered φ)
  (hl : Levels (tangentRule (D := D) ρ φ) b b' u z z') (hs : s ∈ p.outer)
  (hsize : sizeUnder ρ z' = sizeUnder ρ z)
include h hp hq hl hs hsize

/-- Where the second pass comes to its end the first does, and leaves the same at its
target. -/
theorem forward_left (hυ : q.forwardAt ρ φ s τ' = some υ) :
    ∃ ω d, p.forwardAt ρ φ s τ = some ω ∧ ω z = some d ∧ υ z' = some d := by
  obtain ⟨hseed, σ', hσ', hfill, rfl⟩ := (forwardAt_iff ((h.outer s).mp hs)).mp hυ
  have hz := mem_order_iff.mpr (.inr h.target)
  have hz' := mem_order_iff.mpr (.inr h.target')
  obtain ⟨σ, hσ, htarget, hsame⟩ := h.work_left hp hq tangentRule_local hl
    (ρ := p.seeded ρ s τ) (fun n hn => by
      rw [seeded, seeded, if_pos hn, if_pos ((h.outer n).mp hn)]) hσ'
  have hleft : orZeros ρ s σ z = orZeros ρ s σ' z' := by
    rw [orZeros, orZeros, htarget, hsize]
  have hfill' : ∀ n ∈ p.order, (orZeros ρ s σ n).isSome := by
    intro n hn
    by_cases hnz : n = z
    · subst hnz
      rw [hleft]
      exact hfill z' hz'
    · rw [orZeros, hsame n hn hnz]
      exact hfill n (h.mem_order hn hnz)
  obtain ⟨d, hd⟩ := Option.isSome_iff_exists.mp (hfill z' hz')
  refine ⟨_, d, (forwardAt_iff hs).mpr
    ⟨fun n hn => hseed n ((h.outer n).mp hn), σ, hσ, hfill', rfl⟩, ?_, ?_⟩
  · exact (if_pos hz).trans (hleft.trans hd)
  · exact (if_pos hz').trans hd

/-- Where the first pass comes to its end the second does, if there is room for a zero at
the node that only the second may meet. -/
theorem forward_right (hω : p.forwardAt ρ φ s τ = some υ)
    (hroom : (Differential.zeros (K := K) (sizeUnder ρ u) (sizeUnder ρ s) : Option D).isSome) :
    (q.forwardAt ρ φ s τ').isSome := by
  obtain ⟨hseed, σ, hσ, hfill, -⟩ := (forwardAt_iff hs).mp hω
  obtain ⟨σ', hσ', htarget, hsame⟩ := h.work_right hp hq tangentRule_local hl
    (τ := q.seeded ρ s τ') (fun n hn => by
      rw [seeded, seeded, if_pos hn, if_pos ((h.outer n).mp hn)]) hσ
  have hshared {n : NodeId} (hn : n ∈ p.order) (hnq : n ∈ q.order) :
      (orZeros ρ s σ' n).isSome := by
    rw [orZeros, hsame n hn hnq]
    exact hfill n hn
  have hfill' : ∀ n ∈ q.order, (orZeros ρ s σ' n).isSome := by
    intro n hn
    rcases mem_order_iff.mp hn with ho | hi
    · exact hshared (mem_order_iff.mpr (.inl ((h.outer n).mpr ho))) hn
    rcases h.back n hi with rfl | ⟨rfl, -⟩ | hi
    · rw [orZeros, htarget, hsize]
      exact hfill z (mem_order_iff.mpr (.inr h.target))
    · rw [orZeros, Option.isSome_or, hroom, Bool.or_true]
    · exact hshared (mem_order_iff.mpr (.inr hi)) hn
  have hright := (forwardAt_iff (p := q) (τ := τ') ((h.outer s).mp hs)).mpr
    ⟨fun n hn => hseed n ((h.outer n).mpr hn), σ', hσ', hfill', rfl⟩
  rw [hright]
  rfl

end Parallel

end Plan

end GradientGraph
