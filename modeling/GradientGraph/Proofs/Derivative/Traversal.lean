import GradientGraph.Proofs.Derivative.Twice
import GradientGraph.Proofs.Graph.Orderly

/-!
# The traversals of one expression are adjoint

Backward, every variable that an expression reads receives the gradient times the partial Jacobian
in it; forward, the tangent is the sum over these variables of partial Jacobian times tangent. So
the gradient times the tangent is what the variables receive times the tangents they hold. Constant
expressions, which are those that lead to no edges, take part in neither.
-/

set_option autoImplicit false

namespace GradientGraph

section Steps

variable {K D : Type} [Differential K D]

theorem addFlows_isSome {τ τ' : NodeId → Option D} {ps : List (NodeId × D)}
    (h : addFlows (K := K) τ ps = some τ') {n : NodeId}
    (hn : (τ n).isSome ∨ ∃ p ∈ ps, p.1 = n) : (τ' n).isSome := by
  induction ps generalizing τ with
  | nil =>
    obtain rfl := Option.some.inj h
    simpa using hn
  | cons p ps ih =>
    rw [addFlows, List.foldlM_cons] at h
    obtain ⟨σ, hσ, h⟩ := Option.bind_eq_some_iff.mp h
    obtain ⟨s, -, rfl⟩ := Option.map_eq_some_iff.mp hσ
    refine ih h ?_
    by_cases hpn : p.1 = n
    · exact .inl (by rw [← hpn, Function.update_self]; rfl)
    · obtain hheld | ⟨q, hq, hqn⟩ := hn
      · exact .inl (by rwa [Function.update_of_ne (Ne.symm hpn)])
      · obtain rfl | hq := List.mem_cons.mp hq
        · exact absurd hqn hpn
        · exact .inr ⟨q, hq, hqn⟩

variable [Zero K] [Calculus K]

theorem BinaryKernel.pushForward_eq_none {k : BinaryKernel} {x y : Value K} {s t u : Option D}
    (h : k.pushForward x y s t = some u) : u = none ↔ s = none ∧ t = none := by
  cases s with
  | none =>
    cases t with
    | none => simpa [pushForward, eq_comm] using h
    | some t =>
      obtain ⟨j, -, h⟩ := Option.bind_eq_some_iff.mp h
      obtain ⟨d, -, h⟩ := Option.bind_eq_some_iff.mp h
      obtain rfl := Option.some.inj h
      simp
  | some s =>
    cases t with
    | none =>
      obtain ⟨j, -, h⟩ := Option.bind_eq_some_iff.mp h
      obtain ⟨d, -, h⟩ := Option.bind_eq_some_iff.mp h
      obtain rfl := Option.some.inj h
      simp
    | some t =>
      obtain ⟨i, -, h⟩ := Option.bind_eq_some_iff.mp h
      obtain ⟨j, -, h⟩ := Option.bind_eq_some_iff.mp h
      obtain ⟨c, -, h⟩ := Option.bind_eq_some_iff.mp h
      obtain ⟨d, -, h⟩ := Option.bind_eq_some_iff.mp h
      obtain ⟨d', -, h⟩ := Option.bind_eq_some_iff.mp h
      obtain rfl := Option.some.inj h
      simp

end Steps

section Constant

variable {K D : Type}

theorem Formula.isConstant_iff_children {a : Formula K} :
    a.expression.isConstant ↔ a.children = [] := by
  rw [← Formula.isConstant_iff, Formula.isConstant, List.isEmpty_iff]

variable [Zero K] [One K] [Add K] [Mul K] [MulAdd K] [Capacity K] [NatCast K] [Calculus K]
  [Differential K D]

theorem Expression.pullBack_constant {e : Expression K} (he : e.isConstant) (d : D)
    (g : Graph K D) : (e.pullBack d : GraphM K D Unit) g = some ((), g) := by
  induction e with
  | literal v => rfl
  | read label n => cases he
  | unary k a ih =>
    rw [pullBack, if_pos (show a.isConstant = true from he)]
    rfl
  | binary k l r ihl ihr =>
    rw [pullBack, if_pos (show (l.isConstant && r.isConstant) = true from he)]
    rfl
  | shared label e ih => exact ih he

namespace Expression

variable {ρ : NodeId → Option (Value K)}

theorem mem_sideFlows {a : Expression K} {j : Option (Jacobian K)} {d : D}
    {ps : List (NodeId × D)} (h : sideFlows a.isConstant j d (a.flows ρ) = some ps)
    (ih : ∀ {d : D} {qs : List (NodeId × D)}, a.flows ρ d = some qs →
      ∀ n ∈ a.reads, ∃ q ∈ qs, q.1 = n) :
    ∀ n ∈ a.reads, ∃ p ∈ ps, p.1 = n := by
  unfold sideFlows at h
  split at h
  · rename_i hconstant
    simp [isConstant_iff_reads.mp hconstant]
  · obtain ⟨j, -, h⟩ := Option.bind_eq_some_iff.mp h
    obtain ⟨d, -, h⟩ := Option.bind_eq_some_iff.mp h
    exact ih h

theorem mem_flows {e : Expression K} {d : D} {ps : List (NodeId × D)}
    (h : e.flows ρ d = some ps) : ∀ n ∈ e.reads, ∃ p ∈ ps, p.1 = n := by
  induction e generalizing d ps with
  | literal v => exact fun n hn => absurd hn List.not_mem_nil
  | read label m =>
    obtain ⟨v, -, rfl⟩ := Option.map_eq_some_iff.mp h
    exact fun n hn => ⟨(m, d), List.mem_singleton_self _, (List.mem_singleton.mp hn).symm⟩
  | unary k a ih =>
    rw [flows] at h
    split at h
    · rename_i hconstant
      simp [reads, isConstant_iff_reads.mp hconstant]
    · obtain ⟨x, -, h⟩ := Option.bind_eq_some_iff.mp h
      exact mem_sideFlows (a := a) h ih
  | binary k l r ihl ihr =>
    rw [flows] at h
    split at h
    · rename_i hconstant
      obtain ⟨hl, hr⟩ := Bool.and_eq_true_iff.mp hconstant
      simp [reads, isConstant_iff_reads.mp hl, isConstant_iff_reads.mp hr]
    · obtain ⟨x, -, h⟩ := Option.bind_eq_some_iff.mp h
      obtain ⟨y, -, h⟩ := Option.bind_eq_some_iff.mp h
      obtain ⟨ls, hls, h⟩ := Option.bind_eq_some_iff.mp h
      obtain ⟨rs, hrs, h⟩ := Option.bind_eq_some_iff.mp h
      cases h
      intro n hn
      obtain hn | hn := List.mem_append.mp hn
      · obtain ⟨p, hp, hpn⟩ := mem_sideFlows hls ihl n hn
        exact ⟨p, List.mem_append_left rs hp, hpn⟩
      · obtain ⟨p, hp, hpn⟩ := mem_sideFlows hrs ihr n hn
        exact ⟨p, List.mem_append_right ls hp, hpn⟩
  | shared label e ih => exact ih h

end Expression

theorem Expression.tangentUnder_eq_none {ρ : NodeId → Option (Value K)} {τ : NodeId → Option D}
    {e : Expression K} {t : Option D} (h : e.tangentUnder ρ τ = some t) :
    t = none ↔ ∀ n ∈ e.reads, τ n = none := by
  induction e generalizing t with
  | literal v =>
    obtain rfl := Option.some.inj h
    simp [reads]
  | read label n =>
    obtain ⟨v, -, rfl⟩ := Option.map_eq_some_iff.mp h
    simp [reads]
  | unary k a ih =>
    obtain ⟨s, hs, h⟩ := Option.bind_eq_some_iff.mp h
    rw [reads, ← ih hs]
    cases s with
    | none =>
      obtain rfl := Option.some.inj h
      simp
    | some s =>
      obtain ⟨x, -, h⟩ := Option.bind_eq_some_iff.mp h
      obtain ⟨d, -, h⟩ := Option.bind_eq_some_iff.mp h
      obtain rfl := Option.some.inj h
      simp
  | binary k l r ihl ihr =>
    obtain ⟨s, hs, h⟩ := Option.bind_eq_some_iff.mp h
    obtain ⟨t', ht', h⟩ := Option.bind_eq_some_iff.mp h
    have hsides : t = none ↔ s = none ∧ t' = none := by
      have hpush (h : ((l.valueUnder ρ).bind fun x => (r.valueUnder ρ).bind fun y =>
          k.pushForward x y s t') = some t) : t = none ↔ s = none ∧ t' = none := by
        obtain ⟨x, -, h⟩ := Option.bind_eq_some_iff.mp h
        obtain ⟨y, -, h⟩ := Option.bind_eq_some_iff.mp h
        exact BinaryKernel.pushForward_eq_none h
      cases s with
      | none =>
        cases t' with
        | none =>
          obtain rfl := Option.some.inj h
          simp
        | some t' => exact hpush h
      | some s => exact hpush h
    rw [hsides, ihl hs, ihr ht', reads, List.forall_mem_append]
  | shared label e ih => exact ih h

end Constant

noncomputable section

open Finset GradientGraph.Differential ExactDifferential GradientGraph.Graph

variable {K D : Type} [CommRing K] [Calculus K] [Differential K D] [Tabulated K D]
  [ExactDifferential K D]

namespace Expression

variable {β : Label → Expression K} {e : Expression K} {g : Graph K D} {v : Value K}

/-- The backward traversal adds to every variable that is read the gradient times the partial
Jacobian in it, and leaves the derivatives of all others alone. -/
theorem pullBack_exact (hβ : e.NamedBy β) (hg : g.RecallsValues β e)
    (hv : e.Yields (Serves (D := D)) g.value? v) {d : D} {m : Nat}
    (hd : dims (K := K) d = (m, v.size))
    (hheld : ∀ n ∈ e.reads, ∀ s, g.differential? n = some s →
      dims (K := K) s = (m, sizeUnder g.value? n)) :
    ∃ g', (e.pullBack d : GraphM K D Unit) g = some ((), g') ∧ Spills β e g g' ∧
      (∀ n ∉ e.reads, g'.differential? n = g.differential? n) ∧
      ∀ n ∈ e.reads, ∃ s, g'.differential? n = some s ∧
        dims (K := K) s = (m, sizeUnder g.value? n) ∧
        toLinear s = reading (g.differential? n) + toLinear d * e.partialIn g.value? n := by
  obtain ⟨ps, hps, hmem, harrived⟩ := flows_exact hv hd
  obtain ⟨τ, hτ, hread, hother, hdims⟩ :=
    addFlows_exact (fun n => (m, sizeUnder g.value? n)) (fun p hp => (hmem p hp).2)
      fun p hp => hheld p.1 (hmem p hp).1
  have hrun := pullBack_run hβ hg d
  rw [hps, Option.bind_some, hτ] at hrun
  obtain ⟨⟨_, g'⟩, hg', hdifferential, hspills⟩ := rel_left hrun rfl
  refine ⟨g', hg', hspills, ?_, ?_⟩
  · intro n hn
    rw [hdifferential]
    exact hother n fun p hp hpn => hn (hpn ▸ (hmem p hp).1)
  · intro n hn
    obtain ⟨s, hs⟩ := Option.isSome_iff_exists.mp
      (addFlows_isSome hτ (.inr (mem_flows hps n hn)))
    refine ⟨s, by rw [hdifferential, hs], ?_, ?_⟩
    · exact (hdims n s hs).elim id fun hold => hheld n hn s hold
    · rw [← reading_some, ← hs, hread, harrived]

/-- The forward traversal has a tangent exactly if a variable that is read holds one, and it is
the sum over the variables of partial Jacobian times tangent. -/
theorem pushForward_exact (hβ : e.NamedBy β) (hg : g.RecallsValues β e)
    (ht : g.RecallsTangents β e) (hv : e.Yields (Serves (D := D)) g.value? v) {w : Nat}
    (hheld : ∀ n ∈ e.reads, ∀ s, g.differential? n = some s →
      dims (K := K) s = (sizeUnder g.value? n, w)) :
    ∃ t g', (e.pushForward : GraphM K D (Option (Stamped D))) g = some (t, g') ∧
      Learns β e g g' ∧ (t = none ↔ ∀ n ∈ e.reads, g.differential? n = none) ∧
      (∀ s, t = some s → dims (K := K) s.value = (v.size, w)) ∧
      reading (t.map (·.value)) = ∑ n ∈ e.reads.toFinset,
        e.partialIn g.value? n * reading (g.differential? n) := by
  obtain ⟨t, htangent, hdims, hsum⟩ :=
    tangentUnder_exact e.reads.toFinset hv hheld fun n hn => List.mem_toFinset.mpr hn
  obtain ⟨⟨s, g'⟩, hrun, rfl, hlearns⟩ := rel_left (pushForward_run hβ hg ht) htangent
  refine ⟨s, g', hrun, hlearns, ?_, ?_, hsum⟩
  · rw [← tangentUnder_eq_none htangent, Option.map_eq_none_iff]
  · rintro d rfl
    exact hdims d.value rfl

end Expression

/-- The two traversals of an expression whose shared parts remember nothing, over values that fit.
Backward, every variable that is read has the gradient times a map added to its derivative, which
is set if it was not, and nothing else changes but what shared parts remember. Forward, at the
same values, there is a tangent exactly if a variable that is read holds one, and the gradient
times the tangent is the sum of what the variables receive times the tangents they hold. An
expression is constant exactly if it leads to no edges, and then nothing flows back. -/
theorem Formula.traversals_adjoint {β : Label → Expression K} {a : Formula K}
    (hβ : a.expression.NamedBy β) {g : Graph K D} (hg : g.Forgot a) {v : Value K}
    (hv : a.expression.Yields (Serves (D := D)) g.value? v) :
    let received (d : D) (n : NodeId) : Linear K :=
      toLinear d * a.expression.partialIn g.value? n
    (∀ (d : D) (m : Nat), dims (K := K) d = (m, v.size) →
      (∀ n ∈ a.expression.reads, ∀ s, g.differential? n = some s →
        dims (K := K) s = (m, sizeUnder g.value? n)) →
      ∃ g', (a.expression.pullBack d : GraphM K D Unit) g = some ((), g') ∧
        Spills β a.expression g g' ∧
        (∀ n ∉ a.expression.reads, g'.differential? n = g.differential? n) ∧
        ∀ n ∈ a.expression.reads, ∃ s, g'.differential? n = some s ∧
          dims (K := K) s = (m, sizeUnder g.value? n) ∧
          toLinear s = reading (g.differential? n) + received d n) ∧
    (∀ h : Graph K D, h.value? = g.value? → h.Forgot a → ∀ w : Nat,
      (∀ n ∈ a.expression.reads, ∀ s, h.differential? n = some s →
        dims (K := K) s = (sizeUnder g.value? n, w)) →
      ∃ t h', (a.expression.pushForward : GraphM K D (Option (Stamped D))) h = some (t, h') ∧
        (t = none ↔ ∀ n ∈ a.expression.reads, h.differential? n = none) ∧
        (∀ s, t = some s → dims (K := K) s.value = (v.size, w)) ∧
        ∀ d : D, toLinear d * reading (t.map (·.value)) =
          ∑ n ∈ a.expression.reads.toFinset, received d n * reading (h.differential? n)) ∧
    (∀ (h h' : Graph K D) (n : NodeId) (u : Value K) (displaced : List NodeId),
      h.arena.contains n →
      (attach n a u : GraphM K D (List NodeId)) h = some (displaced, h') →
      (a.expression.isConstant ↔ h'.arena.children? n = some [])) ∧
    (a.expression.isConstant → ∀ (d : D) (h : Graph K D),
      (a.expression.pullBack d : GraphM K D Unit) h = some ((), h)) := by
  intro received
  refine ⟨fun d m hd hheld => Expression.pullBack_exact hβ hg.recallsValues hv hd hheld, ?_, ?_,
    fun hconstant d h => Expression.pullBack_constant hconstant d h⟩
  · intro h hvalues hh w hheld
    rw [← hvalues] at hv hheld
    obtain ⟨t, h', hrun, -, hnone, hdims, hsum⟩ :=
      Expression.pushForward_exact hβ hh.recallsValues hh.recallsTangents hv hheld
    refine ⟨t, h', hrun, hnone, hdims, fun d => ?_⟩
    rw [hsum, hvalues, mul_sum]
    exact sum_congr rfl fun n _ => (mul_assoc _ _ _).symm
  · intro h h' n u displaced hn hattach
    rw [children?_attach hn hattach, isConstant_iff_children, Option.some.injEq]

/-- A shared sum of a variable and a literal, squared. The variable holds a derivative already. -/
theorem Formula.traversals_adjoint_shared :
    let v : Value ℝ := .vector #[1, 2]
    let x : Formula ℝ := .binary (.cwise .add) (.read 0 Twice.source) (.literal v)
    let a : Formula ℝ := .binary (.cwise .mul) (x.share 7) (x.share 7)
    let graph (s : Mat ℝ) : Graph ℝ (Mat ℝ) :=
      Twice.graph (.cwise .mul) v (.vector #[1, 4]) (some ⟨0, s⟩) none
    let d : Mat ℝ := .ofFn 1 2 fun _ j => j + 1
    let old : Mat ℝ := .ofFn 1 2 fun _ _ => 5
    let t : Mat ℝ := .ofFn 2 1 fun i _ => i
    ∃ g' h' s u, (a.expression.pullBack d : GraphM ℝ (Mat ℝ) Unit) (graph old) = some ((), g') ∧
      g'.differential? Twice.source = some s ∧
      (a.expression.pushForward : GraphM ℝ (Mat ℝ) (Option (Stamped (Mat ℝ)))) (graph t) =
        some (some u, h') ∧
      toLinear s * toLinear t = toLinear old * toLinear t + toLinear d * toLinear u.value := by
  intro v x a graph d old t
  let u : Value ℝ := Twice.doubled .add v
  have hx : x.expression.valueUnder (graph old).value? = some u := Twice.eval_doubled .add v
  have ha : a.expression.valueUnder (graph old).value? = some (Twice.doubled .mul u) := by
    change ((x.expression.valueUnder (graph old).value?).bind fun l =>
      (x.expression.valueUnder (graph old).value?).bind fun r =>
        (BinaryKernel.cwise .mul).eval l r) = _
    rw [hx]
    exact Twice.eval_doubled .mul u
  have hnamed : a.expression.NamedBy fun _ => x.expression :=
    ⟨⟨rfl, trivial, trivial⟩, rfl, trivial, trivial⟩
  have hforgot (s : Mat ℝ) : (graph s).Forgot a := (Twice.blank _ _ _ _ _).forgot a
  have hreads : a.expression.reads = [Twice.source, Twice.source] := rfl
  have hsize : sizeUnder (graph old).value? Twice.source = 2 := rfl
  have hheld (s : Mat ℝ) : (graph s).differential? Twice.source = some s := rfl
  have hsame : (graph t).value? = (graph old).value? :=
    value?_congr (by simp [graph, Twice.graph, Graph.statics, Arena.mapContent])
  obtain ⟨hback, hforward, -, -⟩ := Formula.traversals_adjoint (D := Mat ℝ) hnamed (hforgot old)
    (Expression.yields_of_valueUnder (fun _ => trivial) ha)
  obtain ⟨g', hpull, -, -, hread⟩ := hback d 1 rfl (by simp [hreads, hheld, hsize, old]; rfl)
  obtain ⟨s, hs, -, hslin⟩ := hread Twice.source List.mem_cons_self
  obtain ⟨r, h', hpush, hnone, -, hsum⟩ := hforward (graph t) hsame (hforgot t) 1
    (by simp [hreads, hheld, hsize, t]; rfl)
  cases r with
  | none => cases hnone.mp rfl Twice.source List.mem_cons_self
  | some r =>
    refine ⟨g', h', s, r, hpull, hs, hpush, ?_⟩
    have hadjoint : toLinear d * toLinear r.value =
        toLinear d * a.expression.partialIn (graph old).value? Twice.source * toLinear t := by
      simpa [hreads, hheld] using hsum d
    rw [hslin, hheld, reading_some, add_mul, hadjoint]

end

end GradientGraph
