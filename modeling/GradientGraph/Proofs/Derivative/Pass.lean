import GradientGraph.Proofs.Derivative.Partial
import GradientGraph.Proofs.Program.Plain

/-!
# Passes solve linear equations

Over exact scalars the forward pass solves the tangent equations of its plan,
and the reverse pass the adjoint equations. Both go by the order of the plan: a
node reads sources and nodes worked off before it, never itself, so what a step
has settled no later step disturbs.
-/

set_option autoImplicit false

namespace GradientGraph
noncomputable section

open Finset

variable {K : Type}

namespace Plan

/-- Whether the nodes that a pass works off have formulas, and read sources and
nodes that come before them. -/
structure Ordered (p : Plan) (φ : NodeId → Option (Formula K)) : Prop where
  nodup : p.order.Nodup
  computed : ∀ n ∈ p.inner, ∃ a, φ n = some a
  reads : ∀ done n rest, p.inner = done ++ n :: rest → ∀ a, φ n = some a →
    ∀ c ∈ a.expression.reads, c ∈ p.outer ∨ c ∈ done

variable {p : Plan} {φ : NodeId → Option (Formula K)}

theorem outer_disjoint_inner {n : NodeId} (ho : n ∈ p.outer) : n ∉ p.inner := by
  intro hi
  exact (mem_inner.mp hi).2 (mem_outer.mp ho).2

theorem mem_order_iff {n : NodeId} : n ∈ p.order ↔ n ∈ p.outer ∨ n ∈ p.inner := by
  rw [mem_outer, mem_inner]
  by_cases h : n ∈ p.sources <;> simp [h]

theorem Ordered.nodup_inner (h : p.Ordered φ) : p.inner.Nodup := h.nodup.filter _

theorem Ordered.reads_order (h : p.Ordered φ) {n : NodeId} (hn : n ∈ p.inner) {a : Formula K}
    (ha : φ n = some a) {c : NodeId} (hc : c ∈ a.expression.reads) : c ∈ p.order := by
  obtain ⟨done, rest, hsplit⟩ := List.append_of_mem hn
  rcases h.reads done n rest hsplit a ha c hc with h | h
  · exact mem_order_iff.mpr (.inl h)
  · exact mem_order_iff.mpr (.inr (by simp [hsplit, h]))

theorem Ordered.not_reads_later (h : p.Ordered φ) {done : List NodeId} {n : NodeId}
    {rest : List NodeId} (hsplit : p.inner = done ++ n :: rest) {a : Formula K}
    (ha : φ n = some a) {c : NodeId} (hc : c ∈ n :: rest) : c ∉ a.expression.reads := by
  intro hread
  have hinner : c ∈ p.inner := by
    rw [hsplit]
    exact List.mem_append_right done hc
  rcases h.reads done n rest hsplit a ha c hread with ho | hd
  · exact outer_disjoint_inner ho hinner
  · have hnodup := h.nodup_inner
    rw [hsplit] at hnodup
    exact (List.nodup_append.mp hnodup).2.2 c hd c hc rfl

theorem Ordered.not_read_by_earlier (h : p.Ordered φ) {done : List NodeId} {n : NodeId}
    {rest : List NodeId} (hsplit : p.inner = done ++ n :: rest) {q : NodeId} (hq : q ∈ done)
    {a : Formula K} (ha : φ q = some a) : n ∉ a.expression.reads := by
  obtain ⟨d₁, d₂, hd⟩ := List.append_of_mem hq
  have hsplit' : p.inner = d₁ ++ q :: (d₂ ++ n :: rest) := by simp [hsplit, hd]
  exact h.not_reads_later hsplit' ha (by simp)

end Plan

section Steps

open GradientGraph.Differential

variable [CommRing K] {D : Type} [Differential K D] [Tabulated K D]

theorem give_eq (ns : List NodeId) {f : NodeId → Option D} (hf : ∀ n ∈ ns, ∃ d, f n = some d)
    (τ : NodeId → Option D) :
    ns.foldlM (giveStep f) τ = some fun n => if n ∈ ns then f n else τ n := by
  induction ns generalizing τ with
  | nil => simp
  | cons m ns ih =>
    obtain ⟨d, hd⟩ := hf m (List.mem_cons_self ..)
    rw [List.foldlM_cons, giveStep, hd, Option.map_some]
    refine (ih (fun n hn => hf n (List.mem_cons_of_mem m hn)) _).trans ?_
    congr 1
    funext n
    by_cases hn : n = m
    · subst hn
      simp [hd]
    · simp [hn]

theorem fill_exact (ns : List NodeId) {f : NodeId → Option D} {shape : NodeId → Nat × Nat}
    {τ : NodeId → Option D}
    (hf : ∀ n ∈ ns, ∃ d, f n = some d ∧ dims (K := K) d = shape n ∧ toLinear d = 0)
    (hτ : ∀ n ∈ ns, ∀ d, τ n = some d → dims (K := K) d = shape n) :
    ∃ τ', ns.foldlM (fillStep f) τ = some τ' ∧ (∀ n, reading (τ' n) = reading (τ n)) ∧
      (∀ n ∉ ns, τ' n = τ n) ∧ ∀ n ∈ ns, ∃ d, τ' n = some d ∧ dims (K := K) d = shape n := by
  induction ns generalizing τ with
  | nil => exact ⟨τ, rfl, fun _ => rfl, fun _ _ => rfl, by simp⟩
  | cons m ns ih =>
    -- a zero in the place of nothing is read as nothing was
    have hstep : ∃ σ, fillStep f τ m = some σ ∧ (∀ n, reading (σ n) = reading (τ n)) ∧
        (∀ n ≠ m, σ n = τ n) ∧ ∃ d, σ m = some d ∧ dims (K := K) d = shape m := by
      cases hm : τ m with
      | some d =>
        exact ⟨τ, by rw [fillStep, hm], fun _ => rfl, fun _ _ => rfl, d, hm,
          hτ m (List.mem_cons_self ..) d hm⟩
      | none =>
        obtain ⟨d, hd, hdims, hzero⟩ := hf m (List.mem_cons_self ..)
        refine ⟨Function.update τ m (some d), by simp [fillStep, hm, giveStep, hd], ?_, ?_,
          d, Function.update_self .., hdims⟩
        · intro n
          by_cases h : n = m
          · subst h
            rw [Function.update_self, reading_some, hzero, hm, reading_none]
          · rw [Function.update_of_ne h]
        · intro n hn
          exact Function.update_of_ne hn ..
    obtain ⟨σ, hσ, hread, hother, d, hd, hdims⟩ := hstep
    obtain ⟨τ', hτ', hread', hother', hall⟩ := ih (τ := σ)
      (fun n hn => hf n (List.mem_cons_of_mem m hn)) fun n hn d' hd' => by
        by_cases h : n = m
        · subst h
          rw [hd] at hd'
          cases hd'
          exact hdims
        · rw [hother n h] at hd'
          exact hτ n (List.mem_cons_of_mem m hn) d' hd'
    refine ⟨τ', ?_, fun n => (hread' n).trans (hread n), ?_, ?_⟩
    · rw [List.foldlM_cons, hσ]
      exact hτ'
    · intro n hn
      rw [List.mem_cons, not_or] at hn
      rw [hother' n hn.2, hother n hn.1]
    · intro n hn
      by_cases h : n ∈ ns
      · exact hall n h
      · obtain rfl : n = m := (List.mem_cons.mp hn).resolve_right h
        exact ⟨d, by rw [hother' n h, hd], hdims⟩

variable [ExactDifferential K D]

theorem addFlows_exact (shape : NodeId → Nat × Nat) {ps : List (NodeId × D)}
    {τ : NodeId → Option D} (hps : ∀ p ∈ ps, dims (K := K) p.2 = shape p.1)
    (hτ : ∀ p ∈ ps, ∀ d, τ p.1 = some d → dims (K := K) d = shape p.1) :
    ∃ τ', addFlows τ ps = some τ' ∧
      (∀ n, reading (τ' n) = reading (τ n) + arrived n ps) ∧
      (∀ n, (∀ p ∈ ps, p.1 ≠ n) → τ' n = τ n) ∧
      ∀ n d, τ' n = some d → dims (K := K) d = shape n ∨ τ n = some d := by
  induction ps generalizing τ with
  | nil => exact ⟨τ, rfl, by simp [arrived], fun _ _ => rfl, fun _ _ h => .inr h⟩
  | cons p ps ih =>
    have hsum : ∃ s, added (τ p.1) p.2 = some s ∧
        dims (K := K) s = shape p.1 ∧ toLinear s = reading (τ p.1) + toLinear p.2 := by
      have hp := hps p (List.mem_cons_self ..)
      cases hold : τ p.1 with
      | none => exact ⟨p.2, rfl, hp, by rw [reading_none, zero_add]⟩
      | some old =>
        have hdims := hτ p (List.mem_cons_self ..) old hold
        obtain ⟨s, hs, hsdims, hslin⟩ := ExactDifferential.accumulate_exact (hp.trans hdims.symm)
        exact ⟨s, hs, hsdims.trans hdims, hslin⟩
    obtain ⟨s, hs, hsdims, hslin⟩ := hsum
    obtain ⟨τ', hτ', hread, hother, hdims⟩ := ih (τ := Function.update τ p.1 (some s))
      (fun q hq => hps q (List.mem_cons_of_mem p hq)) fun q hq d hd => by
        by_cases h : q.1 = p.1
        · rw [h, Function.update_self] at hd
          cases hd
          rw [h, hsdims]
        · rw [Function.update_of_ne h] at hd
          exact hτ q (List.mem_cons_of_mem p hq) d hd
    refine ⟨τ', ?_, ?_, ?_, ?_⟩
    · rw [addFlows, List.foldlM_cons, addFlow, hs]
      exact hτ'
    · intro n
      rw [hread, arrived_cons]
      by_cases h : p.1 = n
      · subst h
        rw [Function.update_self, reading_some, hslin, if_pos rfl, add_assoc]
      · rw [Function.update_of_ne (Ne.symm h), if_neg h, zero_add]
    · intro n hn
      rw [hother n fun q hq => hn q (List.mem_cons_of_mem p hq),
        Function.update_of_ne (Ne.symm (hn p (List.mem_cons_self ..)))]
    · intro n d hd
      rcases hdims n d hd with h | h
      · exact .inl h
      · by_cases hn : n = p.1
        · rw [hn, Function.update_self] at h
          cases h
          exact .inl (by rw [hn, hsdims])
        · rw [Function.update_of_ne hn] at h
          exact .inr h

end Steps

section Passes

open GradientGraph.Differential ExactDifferential

variable [CommRing K] [Calculus K] {D : Type} [Differential K D] [Tabulated K D]
  [ExactDifferential K D]

/-- The partial Jacobian of the formula of `p` in the variable `n`. -/
def nodePartial (ρ : NodeId → Option (Value K)) (φ : NodeId → Option (Formula K))
    (p n : NodeId) : Linear K := ((φ p).map (·.expression.partialIn ρ n)).getD 0

theorem nodePartial_eq {ρ : NodeId → Option (Value K)} {φ : NodeId → Option (Formula K)}
    {p : NodeId} {a : Formula K} (ha : φ p = some a) (n : NodeId) :
    nodePartial ρ φ p n = a.expression.partialIn ρ n := by
  rw [nodePartial, ha]
  rfl

namespace Plan

structure Fits (D : Type) [Differential K D] [Tabulated K D] [ExactDifferential K D] (p : Plan)
    (ρ : NodeId → Option (Value K)) (φ : NodeId → Option (Formula K)) : Prop where
  served : ∀ n ∈ p.order, Serves (D := D) (sizeUnder ρ n)
  yields : ∀ n ∈ p.inner, ∀ a, φ n = some a →
    ∃ v, a.expression.Yields (Serves (D := D)) ρ v ∧ v.size = sizeUnder ρ n

variable {p : Plan} {ρ : NodeId → Option (Value K)} {φ : NodeId → Option (Formula K)}

theorem fits_mat (h : ∀ n ∈ p.inner, ∀ a, φ n = some a →
    ∃ v, a.expression.valueUnder ρ = some v ∧ v.size = sizeUnder ρ n) :
    p.Fits (Mat K) ρ φ where
  served _ _ := trivial
  yields := by
    intro n hn a ha
    obtain ⟨v, hv, hsize⟩ := h n hn a ha
    exact ⟨v, Expression.yields_of_valueUnder (fun _ => trivial) hv, hsize⟩

structure Pushed (p : Plan) (ρ : NodeId → Option (Value K)) (φ : NodeId → Option (Formula K))
    (w : Nat) (τ : NodeId → Option D) (done : List NodeId) (σ : NodeId → Option D) : Prop where
  other : ∀ n ∉ done, σ n = τ n
  shape : ∀ n ∈ done, ∀ d, σ n = some d → dims (K := K) d = (sizeUnder ρ n, w)
  solved : ∀ n ∈ done, reading (σ n) =
    ∑ c ∈ p.order.toFinset, nodePartial ρ φ n c * reading (σ c)

/-- The gradients after the nodes of `done` were worked off, from `τ` on. -/
structure Pulled (p : Plan) (ρ : NodeId → Option (Value K)) (φ : NodeId → Option (Formula K))
    (m : Nat) (τ : NodeId → Option D) (done : List NodeId) (σ : NodeId → Option D) : Prop where
  other : ∀ n ∉ p.order, σ n = τ n
  shape : ∀ n ∈ p.order, ∀ d, σ n = some d → dims (K := K) d = (m, sizeUnder ρ n)
  solved : ∀ n, reading (σ n) =
    reading (τ n) + ∑ q ∈ done.toFinset, reading (σ q) * nodePartial ρ φ q n

theorem push_step (ho : p.Ordered φ) (hf : p.Fits D ρ φ) {w : Nat} {τ σ : NodeId → Option D}
    (hτ : ∀ s ∈ p.outer, ∀ d, τ s = some d → dims (K := K) d = (sizeUnder ρ s, w))
    {done : List NodeId} {n : NodeId} {rest : List NodeId} (hsplit : p.inner = done ++ n :: rest)
    (h : p.Pushed ρ φ w τ done σ) :
    ∃ σ', pushStep ρ φ σ n = some σ' ∧ p.Pushed ρ φ w τ (done ++ [n]) σ' := by
  have hn : n ∈ p.inner := by simp [hsplit]
  obtain ⟨a, ha⟩ := ho.computed n hn
  obtain ⟨v, hv, hsize⟩ := hf.yields n hn a ha
  have hfresh : n ∉ done := by
    have hnodup := ho.nodup_inner
    rw [hsplit] at hnodup
    intro hd
    exact (List.nodup_append.mp hnodup).2.2 n hd n (List.mem_cons_self ..) rfl
  have hshape : ∀ c ∈ a.expression.reads, ∀ d, σ c = some d →
      dims (K := K) d = (sizeUnder ρ c, w) := by
    intro c hc d hd
    by_cases hdone : c ∈ done
    · exact h.shape c hdone d hd
    · rw [h.other c hdone] at hd
      exact hτ c ((ho.reads done n rest hsplit a ha c hc).resolve_right hdone) d hd
  obtain ⟨t, ht, htdims, htlin⟩ := Expression.tangentUnder_exact p.order.toFinset hv hshape
    fun c hc => List.mem_toFinset.mpr (ho.reads_order hn ha hc)
  refine ⟨Function.update σ n t, by simp [pushStep, ha, ht], ?_, ?_, ?_⟩
  · intro k hk
    simp only [List.mem_append, List.mem_singleton, not_or] at hk
    rw [Function.update_of_ne hk.2, h.other k hk.1]
  · intro k hk d hd
    by_cases hkn : k = n
    · subst hkn
      rw [Function.update_self] at hd
      rw [← hsize]
      exact htdims d hd
    · rw [Function.update_of_ne hkn] at hd
      exact h.shape k (by simpa [hkn] using hk) d hd
  · -- no node worked off so far reads `n`, so the settled equations stand
    have hunread : ∀ q b, q = n ∨ q ∈ done → φ q = some b →
        b.expression.partialIn ρ n = (0 : Linear K) := by
      intro q b hq hb
      apply Expression.partialIn_eq_zero
      rcases hq with rfl | hq
      · exact ho.not_reads_later hsplit hb (List.mem_cons_self ..)
      · exact ho.not_read_by_earlier hsplit hq hb
    have hsame : ∀ q, q = n ∨ q ∈ done →
        ∑ c ∈ p.order.toFinset, nodePartial ρ φ q c * reading (Function.update σ n t c) =
          ∑ c ∈ p.order.toFinset, nodePartial ρ φ q c * reading (σ c) := by
      intro q hq
      apply sum_congr rfl
      intro c _
      by_cases hc : c = n
      · subst hc
        have hzero : nodePartial ρ φ q c = (0 : Linear K) := by
          cases hb : φ q with
          | none => simp [nodePartial, hb]
          | some b => rw [nodePartial_eq hb, hunread q b hq hb]
        rw [hzero, zero_mul, zero_mul]
      · rw [Function.update_of_ne hc]
    intro k hk
    by_cases hkn : k = n
    · subst hkn
      rw [hsame k (.inl rfl), Function.update_self, htlin]
      simp only [nodePartial_eq ha]
    · have hkd : k ∈ done := by simpa [hkn] using hk
      rw [hsame k (.inr hkd), Function.update_of_ne hkn]
      exact h.solved k hkd

theorem pull_step (ho : p.Ordered φ) (hf : p.Fits D ρ φ) {m : Nat} {τ σ : NodeId → Option D}
    {done : List NodeId} {n : NodeId} {rest : List NodeId}
    (hsplit : p.inner.reverse = done ++ n :: rest) (h : p.Pulled ρ φ m τ done σ) :
    ∃ σ', pullStep ρ φ σ n = some σ' ∧ p.Pulled ρ φ m τ (done ++ [n]) σ' := by
  have hinner : p.inner = rest.reverse ++ n :: done.reverse := by
    rw [← List.reverse_reverse p.inner, hsplit]
    simp
  have hn : n ∈ p.inner := by simp [hinner]
  obtain ⟨a, ha⟩ := ho.computed n hn
  obtain ⟨v, hv, hsize⟩ := hf.yields n hn a ha
  have hfresh : n ∉ done := by
    have hnodup := ho.nodup_inner
    rw [hinner] at hnodup
    have hcons := (List.nodup_append.mp hnodup).2.1
    simpa using (List.nodup_cons.mp hcons).1
  have hsum (g : NodeId → Linear K) :
      ∑ q ∈ (done ++ [n]).toFinset, g q = ∑ q ∈ done.toFinset, g q + g n := by
    have hset : (done ++ [n]).toFinset = insert n done.toFinset := by
      ext k
      simp
    rw [hset, sum_insert (by simpa using hfresh), add_comm]
  cases hσ : σ n with
  | none =>
    refine ⟨σ, by simp [pullStep, ha, hσ], h.other, h.shape, ?_⟩
    intro k
    rw [hsum, hσ, reading_none, zero_mul, add_zero]
    exact h.solved k
  | some d =>
    have hd := h.shape n (mem_inner.mp hn).1 d hσ
    obtain ⟨ps, hps, hmem, harrived⟩ := Expression.flows_exact hv (hsize ▸ hd)
    have horder : ∀ q ∈ ps, q.1 ∈ p.order := fun q hq => ho.reads_order hn ha (hmem q hq).1
    obtain ⟨σ', hσ', hread, hother, hshape⟩ :=
      addFlows_exact (fun k => (m, sizeUnder ρ k)) (τ := σ)
        (fun q hq => (hmem q hq).2) fun q hq d hd => h.shape q.1 (horder q hq) d hd
    -- nodes worked off before, and `n` itself, are not read here
    have hsettled : ∀ q, q = n ∨ q ∈ done → σ' q = σ q := by
      intro q hq
      apply hother
      intro r hr hrq
      apply ho.not_reads_later hinner ha (c := q) _ (hrq ▸ (hmem r hr).1)
      simpa using hq
    refine ⟨σ', by simp [pullStep, ha, hσ, hps, hσ'], ?_, ?_, ?_⟩
    · intro k hk
      rw [hother k fun q hq hqk => hk (hqk ▸ horder q hq), h.other k hk]
    · intro k hk d' hd'
      rcases hshape k d' hd' with hs | hs
      · exact hs
      · exact h.shape k hk d' hs
    · intro k
      have hdone : ∑ q ∈ done.toFinset, reading (σ' q) * nodePartial ρ φ q k =
          ∑ q ∈ done.toFinset, reading (σ q) * nodePartial ρ φ q k := by
        apply sum_congr rfl
        intro q hq
        rw [hsettled q (.inr (List.mem_toFinset.mp hq))]
      rw [hsum, hdone, hsettled n (.inl rfl), hread, h.solved k, harrived, hσ, reading_some,
        nodePartial_eq ha, add_assoc]

/-- The forward pass solves the tangent equations of the plan. -/
theorem forwardUnder_exact (ho : p.Ordered φ) (hf : p.Fits D ρ φ) {w : Nat}
    {τ : NodeId → Option D} (hw : p.widthUnder τ = w) (hserved : Serves (D := D) w)
    (hτ : ∀ s ∈ p.outer, ∀ d, τ s = some d → dims (K := K) d = (sizeUnder ρ s, w)) :
    ∃ τ', p.forwardUnder ρ φ τ = some τ' ∧ (∀ n ∉ p.order, τ' n = τ n) ∧
      (∀ n ∈ p.order, ∃ d, τ' n = some d ∧ dims (K := K) d = (sizeUnder ρ n, w)) ∧
      (∀ s ∈ p.outer, reading (τ' s) = reading (τ s)) ∧
      ∀ n ∈ p.inner, reading (τ' n) =
        ∑ c ∈ p.order.toFinset, nodePartial ρ φ n c * reading (τ' c) := by
  obtain ⟨σ, hσ, -, hpushed⟩ := foldlM_invariant (f := pushStep ρ φ)
    (fun done rest σ => p.inner = done ++ rest ∧ p.Pushed ρ φ w τ done σ)
    (fun done n rest σ h => by
      obtain ⟨σ', hσ', hpushed⟩ := push_step ho hf hτ h.1 h.2
      exact ⟨σ', hσ', by simpa using h.1, hpushed⟩)
    [] p.inner (s := τ) ⟨rfl, fun _ _ => rfl, by simp, by simp⟩
  rw [List.nil_append] at hpushed
  have houter : ∀ s ∈ p.outer, σ s = τ s := by
    intro s hs
    exact hpushed.other s (outer_disjoint_inner hs)
  have hshape : ∀ n ∈ p.order, ∀ d, σ n = some d → dims (K := K) d = (sizeUnder ρ n, w) := by
    intro n hn d hd
    rcases mem_order_iff.mp hn with h | h
    · exact hτ n h d (by rw [← houter n h, hd])
    · exact hpushed.shape n h d hd
  obtain ⟨τ', hτ', hread, hother, hall⟩ := fill_exact p.order
    (fun n hn => zeros_exact (hf.served n hn) hserved) hshape
  refine ⟨τ', ?_, ?_, hall, ?_, ?_⟩
  · rw [forwardUnder, hσ, Option.bind_some, hw, hτ']
  · intro n hn
    rw [hother n hn, hpushed.other n fun h => hn (mem_inner.mp h).1]
  · intro s hs
    rw [hread, houter s hs]
  · intro n hn
    simp only [hread]
    exact hpushed.solved n hn

/-- The reverse pass solves the adjoint equations of the plan. -/
theorem backwardUnder_exact (ho : p.Ordered φ) (hf : p.Fits D ρ φ) {targets : NodeSet} {m : Nat}
    {τ : NodeId → Option D} (hm : p.heightUnder targets (p.cleared targets τ) = m)
    (hserved : Serves (D := D) m)
    (hτ : ∀ n ∈ p.order, ∀ d, p.cleared targets τ n = some d →
      dims (K := K) d = (m, sizeUnder ρ n)) :
    ∃ τ', p.backwardUnder targets ρ φ τ = some τ' ∧ (∀ n ∉ p.order, τ' n = τ n) ∧
      (∀ n ∈ p.order, ∃ d, τ' n = some d ∧ dims (K := K) d = (m, sizeUnder ρ n)) ∧
      ∀ n, reading (τ' n) = reading (p.cleared targets τ n) +
        ∑ q ∈ p.inner.toFinset, reading (τ' q) * nodePartial ρ φ q n := by
  obtain ⟨σ, hσ, -, hpulled⟩ := foldlM_invariant (f := pullStep ρ φ)
    (fun done rest σ => p.inner.reverse = done ++ rest ∧
      p.Pulled ρ φ m (p.cleared targets τ) done σ)
    (fun done n rest σ h => by
      obtain ⟨σ', hσ', hpulled⟩ := pull_step ho hf h.1 h.2
      exact ⟨σ', hσ', by simpa using h.1, hpulled⟩)
    [] p.inner.reverse (s := p.cleared targets τ) ⟨rfl, fun _ _ => rfl, hτ, by simp⟩
  rw [List.nil_append] at hpulled
  obtain ⟨τ', hτ', hread, hother, hall⟩ := fill_exact p.order
    (fun n hn => zeros_exact hserved (hf.served n hn)) hpulled.shape
  refine ⟨τ', ?_, ?_, hall, ?_⟩
  · rw [backwardUnder, hσ, Option.bind_some, hm, hτ']
  · intro n hn
    rw [hother n hn, hpulled.other n hn, cleared, if_neg fun h => hn h.1]
  · intro n
    simp only [hread]
    have hsolved := hpulled.solved n
    rwa [List.toFinset_reverse] at hsolved

end Plan

end Passes

/-- Solutions of the tangent and of the adjoint equations over one plan pair alike
at its boundary and with the seeds. -/
theorem sum_boundary {A : Type} [Ring A] {S I : Finset NodeId} (hI : I ⊆ S)
    {F R E : NodeId → A} {P : NodeId → NodeId → A}
    (hF : ∀ n ∈ I, F n = ∑ c ∈ S, P n c * F c)
    (hR : ∀ n ∈ S, R n = E n + ∑ q ∈ I, R q * P q n) :
    ∑ n ∈ S \ I, R n * F n = ∑ n ∈ S, E n * F n := by
  have hpaired : ∑ n ∈ S, R n * F n = ∑ n ∈ S, E n * F n + ∑ q ∈ I, R q * F q := by
    calc ∑ n ∈ S, R n * F n
        = ∑ n ∈ S, (E n * F n + ∑ q ∈ I, R q * P q n * F n) := by
          apply sum_congr rfl
          intro n hn
          conv_lhs => rw [hR n hn]
          rw [add_mul, sum_mul]
      _ = ∑ n ∈ S, E n * F n + ∑ q ∈ I, R q * ∑ n ∈ S, P q n * F n := by
          rw [sum_add_distrib, sum_comm]
          simp only [mul_sum, mul_assoc]
      _ = ∑ n ∈ S, E n * F n + ∑ q ∈ I, R q * F q := by
          congr 1
          apply sum_congr rfl
          intro q hq
          rw [← hF q hq]
  have hsplit := sum_sdiff hI (f := fun n => R n * F n)
  rw [hpaired] at hsplit
  exact add_right_cancel hsplit

end
end GradientGraph
