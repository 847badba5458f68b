import GradientGraph.Proofs.Derivative.Twice
import GradientGraph.Proofs.Dual.Kernel
import GradientGraph.Proofs.Program.Memory
import GradientGraph.Proofs.Program.Recycling

/-!
# The forward pass is evaluation over dual numbers

A plan is worked off a second time over dual numbers: each source is its value,
moving with a column of its tangent, and each other node is computed anew from
its formula. What a forward pass leaves at a node is how that node then moves.
-/

set_option autoImplicit false

namespace GradientGraph
noncomputable section

open Finset TrivSqZeroExt DualNumber
open GradientGraph.Differential ExactDifferential GradientGraph.Graph

section Ring

variable {K : Type} [CommRing K]

/-- The expression over dual numbers. Its literals do not move. -/
def Expression.lift : Expression K → Expression K[ε]
  | .literal v => .literal (v.dual fun _ => 0)
  | .read label n => .read label n
  | .unary k a => .unary k a.lift
  | .binary k l r => .binary k l.lift r.lift
  | .shared label e => .shared label e.lift

namespace Plan

variable [Calculus K]

def reevaluateNode (φ : NodeId → Option (Formula K)) (σ : NodeId → Option (Value K[ε]))
    (n : NodeId) : NodeId → Option (Value K[ε]) :=
  Function.update σ n ((φ n).bind fun a => a.expression.lift.valueUnder σ)

/-- Computes the nodes of the plan anew, in its order, all but the sources. -/
def reevaluate (p : Plan) (φ : NodeId → Option (Formula K))
    (σ : NodeId → Option (Value K[ε])) : NodeId → Option (Value K[ε]) :=
  p.inner.foldl (reevaluateNode φ) σ

end Plan

def columnAt {D : Type} [Tabulated K D] (d : Option D) (j i : Nat) : K :=
  (d.map (Tabulated.entry · i j)).getD 0

/-- The sources, moving with column `j` of their tangents; nothing else has a value. -/
def Plan.moving {D : Type} [Tabulated K D] (p : Plan) (ρ : NodeId → Option (Value K))
    (τ : NodeId → Option D) (j : Nat) : NodeId → Option (Value K[ε]) :=
  fun n => if n ∈ p.sources then (ρ n).map (·.dual (columnAt (τ n) j)) else none

end Ring

section Calculus

variable {K : Type} [CommRing K]

theorem Jacobian.coeff_mul {q : Jacobian K} {r n : Nat} (h : q.Fits r n) (A : Linear K)
    {i : Nat} (hi : i < r) (j : Nat) :
    (q.toLinear n * A).coeff i j = q.timesColumn n (fun l => A.coeff l j) i := by
  obtain ⟨hr, hc⟩ := Prod.ext_iff.mp (Jacobian.dims_toMat h)
  simp only [Mat.dims] at hr hc
  rw [toLinear, Mat.toLinear, hr, hc, Linear.coeff_ofEntries_mul, if_pos hi]
  rfl

theorem columnAt_eq {D : Type} [Differential K D] [Tabulated K D] {d : Option D} {r w : Nat}
    (hd : ∀ x, d = some x → dims (K := K) x = (r, w)) {i j : Nat} (hi : i < r) (hj : j < w) :
    columnAt d j i = (reading d).coeff i j := by
  cases d with
  | none => rfl
  | some x =>
    rw [reading_some, Differential.toLinear, hd x rfl, Linear.coeff_ofEntries, if_pos ⟨hi, hj⟩]
    rfl

end Calculus

section Field

variable {K : Type} [Field K] [LT K] [DecidableLT K] [Elementary K]

theorem Expression.lift_valueUnder (hhalf : (Elementary.half : K) * 2 = 1) {e : Expression K}
    (S : Finset NodeId) {ρ : NodeId → Option (Value K)} {σ : NodeId → Option (Value K[ε])}
    {τ : NodeId → Linear K} {j : Nat}
    (hσ : ∀ n ∈ e.reads, σ n = (ρ n).map (·.dual fun i => (τ n).coeff i j))
    (hS : ∀ n ∈ e.reads, n ∈ S) {v : Value K} (h : e.valueUnder ρ = some v) :
    e.lift.valueUnder σ =
      some (v.dual fun i => (∑ n ∈ S, e.partialIn ρ n * τ n).coeff i j) := by
  induction e generalizing v with
  | literal w =>
    cases h
    simp only [partialIn, zero_mul, sum_const_zero]
    rfl
  | read label n =>
    have hv : ρ n = some v := h
    have hsize : sizeUnder ρ n = v.size := by simp [sizeUnder, hv]
    have hn : n ∈ (read (K := K) label n).reads := by simp [reads]
    rw [sum_partialIn_read S τ (hS n hn), hsize]
    refine (hσ n hn).trans ?_
    rw [hv, Option.map_some]
    congr 1
    apply Value.dual_congr
    intro i hi
    exact (Linear.coeff_keep_mul hi _ _).symm
  | unary k a ih =>
    obtain ⟨x, hx, rfl⟩ := Option.map_eq_some_iff.mp h
    rw [sum_partialIn_unary S τ hx, lift, valueUnder, ih hσ hS hx, Option.map_some,
      UnaryKernel.eval_dual hhalf]
    congr 1
    apply Value.dual_congr
    intro i hi
    exact (Jacobian.coeff_mul (k.jacobian_fits x) _ hi j).symm
  | binary k l r ihl ihr =>
    obtain ⟨x, hx, h⟩ := Option.bind_eq_some_iff.mp h
    obtain ⟨y, hy, h⟩ := Option.bind_eq_some_iff.mp h
    have hl := ihl (fun n hn => hσ n (by simp [reads, hn])) (fun n hn => hS n (by simp [reads, hn]))
      hx
    have hr := ihr (fun n hn => hσ n (by simp [reads, hn])) (fun n hn => hS n (by simp [reads, hn]))
      hy
    obtain ⟨p, q, hp, hq, heval⟩ := BinaryKernel.eval_dual h _ _
    obtain ⟨p', hp', hpfits⟩ := BinaryKernel.partialLeft_fits (BinaryKernel.shape_of_eval h)
    obtain ⟨q', hq', hqfits⟩ := BinaryKernel.partialRight_fits (BinaryKernel.shape_of_eval h)
    obtain rfl : p' = p := Option.some.inj (hp'.symm.trans hp)
    obtain rfl : q' = q := Option.some.inj (hq'.symm.trans hq)
    rw [sum_partialIn_binary S τ hx hy, hp, hq, lift, valueUnder, hl, hr]
    refine heval.trans ?_
    congr 1
    apply Value.dual_congr
    intro i hi
    rw [Linear.coeff_add]
    exact congrArg₂ (· + ·) (Jacobian.coeff_mul hpfits _ hi j).symm
      (Jacobian.coeff_mul hqfits _ hi j).symm
  | shared label e ih => exact ih hσ hS h

namespace Plan

/-- Computed anew over dual numbers, each node is its value, moving as the tangent
equations say. -/
theorem reevaluate_exact (hhalf : (Elementary.half : K) * 2 = 1) {p : Plan}
    {ρ : NodeId → Option (Value K)} {φ : NodeId → Option (Formula K)} (ho : p.Ordered φ)
    (hvalues : ∀ n ∈ p.inner, ∀ a, φ n = some a →
      ∃ v, a.expression.valueUnder ρ = some v ∧ ρ n = some v)
    {τ : NodeId → Linear K}
    (hτ : ∀ n ∈ p.inner, τ n = ∑ c ∈ p.order.toFinset, nodePartial ρ φ n c * τ c) {j : Nat}
    {σ : NodeId → Option (Value K[ε])}
    (hσ : ∀ s ∈ p.outer, σ s = (ρ s).map (·.dual fun i => (τ s).coeff i j)) :
    ∀ n ∈ p.order, p.reevaluate φ σ n = (ρ n).map (·.dual fun i => (τ n).coeff i j) := by
  -- the nodes worked off so far move as they should
  have hfold : ∀ (rest done : List NodeId) (σ : NodeId → Option (Value K[ε])),
      p.inner = done ++ rest →
      (∀ n, n ∈ p.outer ∨ n ∈ done → σ n = (ρ n).map (·.dual fun i => (τ n).coeff i j)) →
      ∀ n, n ∈ p.outer ∨ n ∈ p.inner →
        rest.foldl (reevaluateNode φ) σ n = (ρ n).map (·.dual fun i => (τ n).coeff i j) := by
    intro rest
    induction rest with
    | nil =>
      intro done σ hsplit h
      rw [hsplit, List.append_nil]
      exact h
    | cons n rest ih =>
      intro done σ hsplit h
      apply ih (done ++ [n]) _ (by simpa using hsplit)
      have hn : n ∈ p.inner := by simp [hsplit]
      obtain ⟨a, ha⟩ := ho.computed n hn
      obtain ⟨v, hv, hρ⟩ := hvalues n hn a ha
      have hlift := Expression.lift_valueUnder hhalf p.order.toFinset
        (fun c hc => h c (ho.reads done n rest hsplit a ha c hc))
        (fun c hc => List.mem_toFinset.mpr (ho.reads_order hn ha hc)) hv
      have hsolved := hτ n hn
      simp only [nodePartial_eq ha] at hsolved
      intro k hk
      by_cases hkn : k = n
      · subst hkn
        rw [reevaluateNode, Function.update_self, ha, Option.bind_some, hlift, hρ, Option.map_some,
          ← hsolved]
      · rw [reevaluateNode, Function.update_of_ne hkn]
        exact h k (hk.imp_right fun hd => by simpa [hkn] using hd)
  intro n hn
  apply hfold p.inner [] σ rfl
  · intro s hs
    exact hσ s (hs.resolve_right List.not_mem_nil)
  · exact mem_order_iff.mp hn

/-- Whether the nodes that a pass computes hold the values of their expressions, all
of them of sizes that the derivatives serve. -/
structure Evaluated (D : Type) [Differential K D] [Tabulated K D] [ExactDifferential K D]
    (p : Plan) (ρ : NodeId → Option (Value K)) (φ : NodeId → Option (Formula K)) : Prop where
  served : ∀ n ∈ p.order, Serves (D := D) (sizeUnder ρ n)
  holds : ∀ n ∈ p.inner, ∀ a, φ n = some a →
    ∃ v, a.expression.Yields (Serves (D := D)) ρ v ∧ ρ n = some v

end Plan

variable {D : Type} [Differential K D] [Tabulated K D] [ExactDifferential K D]

theorem Plan.Evaluated.fits {p : Plan} {ρ : NodeId → Option (Value K)}
    {φ : NodeId → Option (Formula K)} (h : p.Evaluated D ρ φ) : p.Fits D ρ φ where
  served := h.served
  yields := by
    intro n hn a ha
    obtain ⟨v, hv, hρ⟩ := h.holds n hn a ha
    exact ⟨v, hv, by simp [sizeUnder, hρ]⟩

theorem Plan.evaluated_mat {p : Plan} {ρ : NodeId → Option (Value K)}
    {φ : NodeId → Option (Formula K)} (h : ∀ n ∈ p.inner, ∀ a, φ n = some a →
      ∃ v, a.expression.valueUnder ρ = some v ∧ ρ n = some v) : p.Evaluated (Mat K) ρ φ where
  served _ _ := trivial
  holds := by
    intro n hn a ha
    obtain ⟨v, hv, hρ⟩ := h n hn a ha
    exact ⟨v, Expression.yields_of_valueUnder (fun _ => trivial) hv, hρ⟩

/-- On a current plan that is evaluated, the forward pass runs to its end and computes
what evaluation over dual numbers does. -/
theorem Program.dual_of_current (hhalf : (Elementary.half : K) * 2 = 1) {p : Program D}
    {g : Graph K D} {plan : Plan} (hg : g.Sound) (hblank : g.Blank)
    (hcurrent : p.Current g plan) (hevaluated : plan.Evaluated D g.value? g.formula?) {w : Nat}
    (htangents : ∀ s ∈ plan.outer, ∀ d, g.differential? s = some d →
      dims (K := K) d = (g.sizeAt s, w))
    (hunset : (∀ s, s ∈ plan.outer → g.differential? s = none) → w = 1) :
    ∃ q g', p.pushTangent g = some ((q, .ok ()), g') ∧
      ∀ n ∈ plan.order, ∃ d, g'.differential? n = some d ∧ dims (K := K) d = (g.sizeAt n, w) ∧
        ∀ j, j < w → ∃ v,
          plan.reevaluate g.formula? (plan.moving g.value? g.differential? j) n = some v ∧
          v.size = g.sizeAt n ∧
          ∀ i, i < g.sizeAt n → Tabulated.entry d i j = (v.entry i).snd := by
  obtain ⟨q, g', hrun, -, hall, houter, hinner⟩ :=
    pushTangent_exact hcurrent hg hblank hevaluated.fits htangents hunset
  refine ⟨q, g', hrun, ?_⟩
  intro n hn
  obtain ⟨d, hd, hdims⟩ := hall n hn
  refine ⟨d, hd, hdims, ?_⟩
  intro j hj
  have hmoving : ∀ s ∈ plan.outer, plan.moving g.value? g.differential? j s =
      (g.value? s).map (·.dual fun i => (reading (g'.differential? s)).coeff i j) := by
    intro s hs
    rw [Plan.moving, if_pos (Plan.mem_outer.mp hs).2, houter s hs]
    cases hv : g.value? s with
    | none => rfl
    | some v =>
      have hsize : g.sizeAt s = v.size := by simp [sizeAt, hv]
      rw [Option.map_some, Option.map_some]
      congr 1
      apply Value.dual_congr
      intro i hi
      exact columnAt_eq (htangents s hs) (hsize ▸ hi) hj
  have hvalues : ∀ n ∈ plan.inner, ∀ a, g.formula? n = some a →
      ∃ v, a.expression.valueUnder g.value? = some v ∧ g.value? n = some v := by
    intro n hn a ha
    obtain ⟨v, hv, hρ⟩ := hevaluated.holds n hn a ha
    exact ⟨v, hv.valueUnder_eq, hρ⟩
  have hnew := Plan.reevaluate_exact hhalf (Plan.ordered_of_current hcurrent hg) hvalues hinner
    hmoving n hn
  obtain ⟨v, hv⟩ := Option.isSome_iff_exists.mp
    ((isSome_value? g n).trans (hcurrent.describes.live n hn))
  have hsize : g.sizeAt n = v.size := by simp [sizeAt, hv]
  rw [hv, Option.map_some] at hnew
  refine ⟨_, hnew, hsize.symm, ?_⟩
  intro i hi
  rw [Value.snd_entry_dual v _ (hsize ▸ hi), hd, reading_some, Differential.toLinear, hdims,
    Linear.coeff_ofEntries, if_pos ⟨hi, hj⟩]

/-- A forward pass that goes ahead, over a plan that is evaluated, leaves at each node
a derivative of as many columns as the tangents have, whose columns are the
infinitesimal parts of the node computed anew over dual numbers, each source moving
with that column of its tangent. There, the operators of arithmetic are those of the
ring. -/
theorem Program.pushTangent_eq_dual (hhalf : (Elementary.half : K) * 2 = 1)
    {p q : Program D} {g g' : Graph K D} {plan : Plan} (hg : g.Sound) (hblank : g.Blank)
    (hp : p.Recent g) (h : p.pushTangent g = some ((q, .ok ()), g'))
    (hplan : q.plan? = some plan) (hevaluated : plan.Evaluated D g.value? g.formula?) {w : Nat}
    (htangents : ∀ s ∈ plan.outer, ∀ d, g.differential? s = some d →
      dims (K := K) d = (g.sizeAt s, w))
    (hunset : (∀ s, s ∈ plan.outer → g.differential? s = none) → w = 1) :
    (∀ n ∈ plan.order, ∃ d, g'.differential? n = some d ∧ dims (K := K) d = (g.sizeAt n, w) ∧
      ∀ j, j < w → ∃ v,
        plan.reevaluate g.formula? (plan.moving g.value? g.differential? j) n = some v ∧
        v.size = g.sizeAt n ∧
        ∀ i, i < g.sizeAt n → Tabulated.entry d i j = (v.entry i).snd) ∧
    (∀ a b : K[ε], (Calculus.binary .add).eval a b = a + b) ∧
    (∀ a b : K[ε], (Calculus.binary .sub).eval a b = a - b) ∧
    (∀ a b : K[ε], (Calculus.binary .mul).eval a b = a * b) ∧
    (∀ a b : K[ε], b.fst ≠ 0 → (Calculus.binary .div).eval a b * b = a) ∧
    (∀ a : K[ε], (Calculus.unary .neg).eval a = -a) ∧
    (∀ a : K[ε], (Calculus.unary .square).eval a = a * a) := by
  refine ⟨?_, extend_add, extend_sub, extend_mul, fun a _ => extend_div a, extend_neg,
    extend_square⟩
  have hcurrent := (current_iff_of_run (x := .pushTangent) hp h).mpr hplan
  obtain ⟨q', g'', hrun, hdual⟩ :=
    dual_of_current hhalf hg hblank hcurrent hevaluated htangents hunset
  obtain ⟨-, rfl⟩ := Prod.mk.inj (Option.some.inj (h.symm.trans hrun))
  exact hdual

end Field

/-- Three tangents at once through the squares of two real numbers. -/
theorem Program.pushTangent_eq_dual_squares :
    let g : Graph ℝ (Mat ℝ) :=
      Twice.graph (.cwise .mul) (.vector #[1, 2]) (Twice.doubled .mul (.vector #[1, 2]))
        (some ⟨0, .ofFn 2 3 fun i j => i + 2 * j⟩) none
    let f : Program (Mat ℝ) := Twice.program
    ∃ q g', f.pushTangent g = some ((q, .ok ()), g') ∧ q.plan? = some Twice.plan ∧
      (∀ n ∈ Twice.plan.order, ∃ d, g'.differential? n = some d ∧
        dims (K := ℝ) d = (g.sizeAt n, 3) ∧
        ∀ j, j < 3 → ∃ v,
          Twice.plan.reevaluate g.formula? (Twice.plan.moving g.value? g.differential? j) n =
            some v ∧
          v.size = g.sizeAt n ∧ ∀ i, i < g.sizeAt n → d.entry i j = (v.entry i).snd) ∧
      (∀ a b : ℝ[ε], (Calculus.binary .add).eval a b = a + b) ∧
      (∀ a b : ℝ[ε], (Calculus.binary .sub).eval a b = a - b) ∧
      (∀ a b : ℝ[ε], (Calculus.binary .mul).eval a b = a * b) ∧
      (∀ a b : ℝ[ε], b.fst ≠ 0 → (Calculus.binary .div).eval a b * b = a) ∧
      (∀ a : ℝ[ε], (Calculus.unary .neg).eval a = -a) ∧
      (∀ a : ℝ[ε], (Calculus.unary .square).eval a = a * a) := by
  intro g f
  have hg : g.Sound := Twice.sound _ _ _ _ _
  have hblank : g.Blank := Twice.blank _ _ _ _ _
  have hcurrent : f.Current g Twice.plan := Twice.current _ _ _ _ _
  have hevaluated : Twice.plan.Evaluated (Mat ℝ) g.value? g.formula? :=
    Plan.evaluated_mat fun _ _ _ ha => Twice.upToDate _ _ _ _ _ (Twice.eval_doubled .mul _) ha
  have htangents : ∀ s ∈ Twice.plan.outer, ∀ d, g.differential? s = some d →
      dims (K := ℝ) d = (g.sizeAt s, 3) := by
    intro s hs d hd
    obtain rfl := List.mem_singleton.mp (show s ∈ [Twice.source] from hs)
    obtain rfl : Mat.ofFn 2 3 (fun i j => (i : ℝ) + 2 * j) = d := Option.some.inj hd
    rfl
  have hunset : (∀ s, s ∈ Twice.plan.outer → g.differential? s = none) → 3 = 1 := by
    intro hnone
    cases hnone Twice.source (List.mem_singleton_self _)
  obtain ⟨q, g', hrun, -⟩ :=
    dual_of_current half_mul_two hg hblank hcurrent hevaluated htangents hunset
  have hplan := (current_iff_of_run (x := .pushTangent) hcurrent.recent hrun).mp hcurrent
  exact ⟨q, g', hrun, hplan, pushTangent_eq_dual half_mul_two hg hblank hcurrent.recent hrun
    hplan hevaluated htangents hunset⟩

/-- Tangents come from elsewhere where a plan is taken for fresh because generations have
come round: the variable that it does not know holds one, though it does not move over dual
numbers. And a tangent with another number of rows than the source has elements stays and
is passed on as it is. -/
theorem Program.pushTangent_ne_dual : ∃ _ : NumberText ℝ,
    (∃ (w : Workbench ℝ (Mat ℝ)) (p : Program (Mat ℝ)) (g : Graph ℝ (Mat ℝ)) (d : Mat ℝ)
        (v : Value ℝ[ε]), w.Unprobed ∧ w.programs = [("f", p)] ∧ w.graph.Blank ∧
      p.plan? = some Twice.plan ∧
      Twice.plan.Evaluated (Mat ℝ) w.graph.value? w.graph.formula? ∧
      (∀ s ∈ Twice.plan.outer, ∀ t, w.graph.differential? s = some t →
        dims (K := ℝ) t = (w.graph.sizeAt s, 1)) ∧
      p.pushTangent w.graph = some ((p, .ok ()), g) ∧
      g.differential? Twice.target = some d ∧
      Twice.plan.reevaluate w.graph.formula? (fun n =>
        (Twice.plan.moving w.graph.value? w.graph.differential? 0 n).or
          ((w.graph.value? n).map (·.dual fun _ => 0))) Twice.target = some v ∧
      d.entry 0 0 = 1 ∧ (v.entry 0).snd = 0) ∧
    ∃ (w : Workbench ℝ (Mat ℝ)) (p : Program (Mat ℝ)) (g : Graph ℝ (Mat ℝ)),
      w.Unprobed ∧ w.programs = [("f", p)] ∧ w.graph.Blank ∧ p.plan? = some Twice.plan ∧
      Twice.plan.Evaluated (Mat ℝ) w.graph.value? w.graph.formula? ∧
      (w.graph.differential? Twice.source).map (dims (K := ℝ)) = some (1, 2) ∧
      p.pushTangent w.graph = some ((p, .ok ()), g) ∧
      ∀ n ∈ Twice.plan.order, g.sizeAt n = 3 ∧
        (g.differential? n).map (dims (K := ℝ)) = some (1, 2) := by
  let text : NumberText ℝ := ⟨fun _ => ""⟩
  refine ⟨text, ?_, ?_⟩
  · let one : Mat ℝ := .ofFn 1 1 fun _ _ => 1
    let w : Workbench ℝ (Mat ℝ) :=
      Recycling.wrapped (.scalar 3) (.scalar 5) (some ⟨1, one⟩) (some ⟨0, one⟩) 2
    have hw : w.Unprobed := Recycling.unprobed_wrapped_both _ _ one one
    have hevaluated : Twice.plan.Evaluated (Mat ℝ) w.graph.value? w.graph.formula? := by
      refine Plan.evaluated_mat fun n hn a ha => ?_
      obtain rfl := List.mem_singleton.mp (show n ∈ [Twice.target] from hn)
      obtain rfl : (.read 1 Recycling.other : Formula ℝ) = a := Option.some.inj ha
      exact ⟨_, rfl, rfl⟩
    have htangents : ∀ s ∈ Twice.plan.outer, ∀ t, w.graph.differential? s = some t →
        dims (K := ℝ) t = (w.graph.sizeAt s, 1) := by
      intro s hs t ht
      obtain rfl := List.mem_singleton.mp (show s ∈ [Twice.source] from hs)
      obtain rfl : one = t := Option.some.inj ht
      rfl
    exact ⟨w, _, _, one, _, hw, rfl, ⟨rfl, rfl⟩, rfl, hevaluated, htangents, rfl, rfl, rfl, rfl,
      Value.snd_entry_dual (.scalar 5) _ Nat.one_pos⟩
  · let x : Value ℝ := .vector #[1, 2, 3]
    let wide : Mat ℝ := .ofFn 1 2 fun _ _ => 1
    have hstep : (Recycling.copied x [("f", { Twice.program with state := .compiled Twice.plan })] :
        Workbench ℝ (Mat ℝ)).step (.setDerivative "x" wide) = some (_, .ok .nothing) := rfl
    have hw := (Recycling.unprobed_copied x).step _ id hstep
    refine ⟨_, _, _, hw, rfl, ⟨rfl, rfl⟩, rfl, ?_, rfl, rfl, ?_⟩
    · refine Plan.evaluated_mat fun n hn a ha => ?_
      obtain rfl := List.mem_singleton.mp (show n ∈ [Twice.target] from hn)
      obtain rfl : (.read 0 Twice.source : Formula ℝ) = a := Option.some.inj ha
      exact ⟨_, rfl, rfl⟩
    · intro n hn
      obtain rfl | rfl : n = Twice.source ∨ n = Twice.target := by simpa [Twice.plan] using hn
      · exact ⟨rfl, rfl⟩
      · exact ⟨rfl, rfl⟩

end
end GradientGraph
