import GradientGraph.Proofs.Derivative.Program
import GradientGraph.Proofs.Graph.Shape
import GradientGraph.Proofs.Program.History

/-!
# Shapes in the passes of a program

Where every formula fits the variable that it computes, evaluation gives each variable a
value of the shape that it had, and the seeded passes leave derivatives of the dimensions
that the sizes of the variables and of the seed ask for, whatever was there before. None
of them meets arrays that do not fit.
-/

set_option autoImplicit false

namespace GradientGraph

variable {K : Type}

/-- Whether all variables of the list hold derivatives, of the dimensions that `δ` asks for. -/
def Full (δ : NodeId → Nat × Nat) (ns : List NodeId) (τ : NodeId → Option (Mat K)) : Prop :=
  ∀ n ∈ ns, ∃ d, τ n = some d ∧ d.dims = δ n

namespace Full

variable {δ : NodeId → Nat × Nat} {ns ms : List NodeId} {τ : NodeId → Option (Mat K)}

theorem nil : Full δ [] τ := fun _ hn => absurd hn List.not_mem_nil

theorem sized (h : Full δ ns τ) : Sized δ ns τ := by
  intro n hn d hd
  obtain ⟨_, hτ, hdims⟩ := h n hn
  cases hd.symm.trans hτ
  exact hdims

theorem update (h : Full δ ns τ) {n : NodeId} {d : Mat K} (hd : d.dims = δ n) :
    Full δ (ns ++ [n]) (Function.update τ n (some d)) := by
  intro m hm
  by_cases hmn : m = n
  · subst hmn
    exact ⟨d, Function.update_self .., hd⟩
  · rw [Function.update_of_ne hmn]
    exact h m (by simpa [hmn] using hm)

end Full

section Filling

variable {τ : NodeId → Option (Mat K)} {δ : NodeId → Nat × Nat} {ns : List NodeId} {room : Prop}

theorem Full.give {f : NodeId → Option (Mat K)}
    (hf : ∀ n ∈ ns, Delivers room (·.dims = δ n) (f n)) :
    Delivers room (Full δ ns) (ns.foldlM (giveStep f) τ) := by
  refine (Delivers.foldlM (fun done rest σ => done ++ rest = ns ∧ Full δ done σ)
    (fun done n rest σ h => ?_) [] ns ⟨rfl, .nil⟩).imp fun σ _ h => h.2
  have hn : n ∈ ns := by simp [← h.1]
  exact (hf n hn).map fun d _ hd => ⟨by simpa using h.1, h.2.update hd⟩

theorem Sized.fill {f : NodeId → Option (Mat K)}
    (hf : ∀ n ∈ ns, Delivers room (·.dims = δ n) (f n)) (hτ : Sized δ ns τ) :
    Delivers room (Full δ ns) (ns.foldlM (fillStep f) τ) := by
  refine (Delivers.foldlM
    (fun done rest σ => done ++ rest = ns ∧ Sized δ ns σ ∧ Full δ done σ)
    (fun done n rest σ h => ?_) [] ns ⟨rfl, hτ, .nil⟩).imp fun σ _ h => h.2.2
  obtain ⟨hns, hsized, hfull⟩ := h
  have hn : n ∈ ns := by simp [← hns]
  unfold fillStep
  split
  · rename_i d hd
    refine .some ⟨by simpa using hns, hsized, fun m hm => ?_⟩
    by_cases hmn : m = n
    · subst hmn
      exact ⟨d, hd, hsized m hn d hd⟩
    · exact hfull m (by simpa [hmn] using hm)
  · refine (hf n hn).map fun d _ hd => ⟨by simpa using hns, ?_, hfull.update hd⟩
    refine hsized.update ?_ fun m hm => .inr hm
    rintro _ ⟨⟩
    exact hd

end Filling

variable [Zero K] [One K] [Add K] [Mul K] [MulAdd K] [Capacity K]

namespace Plan

theorem dims_sourceSeed (ρ : NodeId → Option (Value K)) (s n : NodeId) :
    Delivers (Roomy K) (fun d : Mat K => d.dims = (sizeUnder ρ n, sizeUnder ρ s))
      (sourceSeed ρ s n) := by
  unfold sourceSeed
  split
  · rename_i h
    subst h
    exact Mat.dims_identity _
  · exact Mat.dims_zeros _ _

theorem dims_targetSeed (ρ : NodeId → Option (Value K)) (t n : NodeId) :
    Delivers (Roomy K) (fun d : Mat K => d.dims = (sizeUnder ρ t, sizeUnder ρ n))
      (targetSeed ρ t n) := by
  unfold targetSeed
  split
  · rename_i h
    subst h
    exact Mat.dims_identity _
  · exact Mat.dims_zeros _ _

end Plan

variable [NatCast K] [Calculus K] {ρ : NodeId → Option (Value K)} {φ : NodeId → Option (Formula K)}

theorem Fitted.evaluateStep (h : Fitted (shapes ρ) φ) (n : NodeId) :
    Delivers (Roomy K) (fun σ => shapes σ = shapes ρ) (Graph.evaluateStep φ ρ n) := by
  unfold Graph.evaluateStep
  split
  · exact .some rfl
  · rename_i a ha
    obtain ⟨s, hs, hshaped⟩ := h n a ha
    refine hshaped.value.map fun v _ hv => ?_
    funext m
    by_cases hm : m = n
    · subst hm
      rw [shapes, Function.update_self, Option.map_some, hv, hs]
    · rw [shapes, Function.update_of_ne hm]
      rfl

theorem Fitted.evaluate (h : Fitted (shapes ρ) φ) (ns : List NodeId) :
    Delivers (Roomy K) (fun σ => shapes σ = shapes ρ)
      (ns.foldlM (Graph.evaluateStep φ) ρ) := by
  refine .foldlM (fun _ _ σ => shapes σ = shapes ρ) (fun _ n _ σ hσ => ?_) [] ns rfl
  exact (Fitted.evaluateStep (hσ ▸ h) n).imp fun σ' _ hσ' => hσ'.trans hσ

namespace Plan

variable {p : Plan} {targets : NodeSet} {τ : NodeId → Option (Mat K)} {w m : Nat}

theorem sized_push (ho : p.Ordered φ) (hf : Fitted (shapes ρ) φ)
    (hτ : Sized (fun n => (sizeUnder ρ n, w)) p.outer τ) :
    Delivers (Roomy K) (Sized (fun n => (sizeUnder ρ n, w)) p.order)
      (p.inner.foldlM (pushStep ρ φ) τ) := by
  refine (Delivers.foldlM (fun done rest σ => p.inner = done ++ rest ∧
    Sized (fun n => (sizeUnder ρ n, w)) (p.outer ++ done) σ) (fun done n rest σ h => ?_)
    [] p.inner ⟨rfl, by rwa [List.append_nil]⟩).imp fun σ _ h => h.2.mono fun n hn => ?_
  · obtain ⟨hsplit, hσ⟩ := h
    obtain ⟨a, ha⟩ := ho.computed n (by simp [hsplit])
    obtain ⟨s, hs, hshaped⟩ := hf n a ha
    have hreads : Sized (fun n => (sizeUnder ρ n, w)) a.expression.reads σ :=
      hσ.mono fun c hc => List.mem_append.mpr (ho.reads done n rest hsplit a ha c hc)
    rw [pushStep, ha]
    refine (hshaped.tangent hreads).map fun t _ ht => ⟨by simpa using hsplit, ?_⟩
    rw [← sizeUnder_of_shapes hs] at ht
    refine hσ.update ht fun k hk => ?_
    simp only [List.mem_append, List.mem_singleton] at hk ⊢
    tauto
  · simpa [mem_order_iff] using hn

theorem sized_pull (ho : p.Ordered φ) (hf : Fitted (shapes ρ) φ)
    (hτ : Sized (fun n => (m, sizeUnder ρ n)) p.order τ) :
    Delivers (Roomy K) (Sized (fun n => (m, sizeUnder ρ n)) p.order)
      (p.inner.reverse.foldlM (pullStep ρ φ) τ) := by
  refine (Delivers.foldlM (fun done rest σ => done ++ rest = p.inner.reverse ∧
    Sized (fun n => (m, sizeUnder ρ n)) p.order σ) (fun done n rest σ h => ?_)
    [] p.inner.reverse ⟨rfl, hτ⟩).imp fun σ _ h => h.2
  obtain ⟨hsplit, hσ⟩ := h
  have hrest : (done ++ [n]) ++ rest = p.inner.reverse := by simpa using hsplit
  have hn : n ∈ p.inner := by
    rw [← List.mem_reverse, ← hsplit]
    simp
  obtain ⟨a, ha⟩ := ho.computed n hn
  obtain ⟨s, hs, hshaped⟩ := hf n a ha
  rw [pullStep, ha]
  cases hd : σ n with
  | none => exact .some ⟨hrest, hσ⟩
  | some d =>
    have hdims : d.dims = (m, sizeUnder ρ n) := hσ n (mem_inner.mp hn).1 d hd
    rw [sizeUnder_of_shapes hs] at hdims
    refine (hshaped.flows hdims).bind fun ps hps hflowing => ?_
    have hreads := Expression.mem_reads_of_flows hps
    refine (hσ.addFlows fun q hq => ?_).imp fun _ _ h => ⟨hrest, h⟩
    exact ⟨ho.reads_order hn ha (hreads q hq), hflowing q hq⟩

theorem full_forwardUnder (ho : p.Ordered φ) (hf : Fitted (shapes ρ) φ)
    (hw : p.widthUnder τ = w) (hτ : Sized (fun n => (sizeUnder ρ n, w)) p.outer τ) :
    Delivers (Roomy K) (Full (fun n => (sizeUnder ρ n, w)) p.order)
      (p.forwardUnder ρ φ τ) := by
  rw [forwardUnder, hw]
  exact (sized_push ho hf hτ).bind fun σ _ hσ => hσ.fill fun n _ => Mat.dims_zeros _ _

theorem full_backwardUnder (ho : p.Ordered φ) (hf : Fitted (shapes ρ) φ)
    (hm : p.heightUnder targets (p.cleared targets τ) = m)
    (hτ : Sized (fun n => (m, sizeUnder ρ n)) p.order (p.cleared targets τ)) :
    Delivers (Roomy K) (Full (fun n => (m, sizeUnder ρ n)) p.order)
      (p.backwardUnder targets ρ φ τ) := by
  rw [backwardUnder, hm]
  exact (sized_pull ho hf hτ).bind fun σ _ hσ => hσ.fill fun n _ => Mat.dims_zeros _ _

theorem full_forwardUnder_seeded (ho : p.Ordered φ) (hf : Fitted (shapes ρ) φ) {s : NodeId}
    (hs : s ∈ p.outer) :
    Delivers (Roomy K) (Full (fun n => (sizeUnder ρ n, sizeUnder ρ s)) p.order)
      ((p.outer.foldlM (giveStep (sourceSeed ρ s)) τ).bind (p.forwardUnder ρ φ)) := by
  refine (Full.give fun n _ => dims_sourceSeed ρ s n).bind fun σ _ hσ => ?_
  refine full_forwardUnder ho hf (widthUnder_eq ?_ (.inr ?_)) hσ.sized
  · exact fun n hn d hd => congrArg Prod.snd (hσ.sized n hn d hd)
  · exact ⟨s, hs, (hσ s hs).imp fun d hd => hd.1⟩

theorem full_backwardUnder_seeded (ho : p.Ordered φ) (hf : Fitted (shapes ρ) φ) {t : NodeId}
    (hto : t ∈ p.order) (ht : t ∈ targets) :
    Delivers (Roomy K) (Full (fun n => (sizeUnder ρ t, sizeUnder ρ n)) p.order)
      (((p.order.filter (· ∈ targets)).foldlM (giveStep (targetSeed ρ t)) τ).bind
        (p.backwardUnder targets ρ φ)) := by
  refine (Full.give fun n _ => dims_targetSeed ρ t n).bind fun σ _ hσ => ?_
  have hcleared (n : NodeId) (hn : n ∈ targets) : p.cleared targets σ n = σ n :=
    if_neg fun h => h.2 hn
  have hsized : Sized (fun n => (sizeUnder ρ t, sizeUnder ρ n)) p.order
      (p.cleared targets σ) := by
    intro n hn d hd
    by_cases hnt : n ∈ targets
    · rw [hcleared n hnt] at hd
      exact hσ.sized n (by simp [hn, hnt]) d hd
    · rw [cleared, if_pos ⟨hn, hnt⟩] at hd
      cases hd
  refine full_backwardUnder ho hf (heightUnder_eq ?_ (.inr ?_)) hsized
  · exact fun n hn _ d hd => congrArg Prod.fst (hsized n hn d hd)
  · refine ⟨t, hto, ht, ?_⟩
    rw [hcleared t ht]
    exact (hσ t (by simp [hto, ht])).imp fun d hd => hd.1

end Plan

namespace Program

open GradientGraph.Graph

variable {p q : Program (Mat K)} {g g' : Graph K (Mat K)} {plan : Plan}

theorem Current.full_pushTangentAt (h : p.Current g plan) (hg : g.Sound) (hb : g.Blank)
    (hf : Fitted (shapes g.value?) g.formula?) {s : NodeId} (hs : s ∈ plan.sources) :
    Delivers (Roomy K) (fun r => OnlyDerivatives g r.2 ∧
      Full (fun n => (g.sizeAt n, g.sizeAt s)) plan.order r.2.differential?)
      (p.pushTangentAt s g) := by
  obtain ⟨β, hβ⟩ := hg.named
  have hso : s ∈ plan.outer := h.mem_outer_iff.mpr hs
  have hplain := Plan.full_forwardUnder_seeded (τ := g.differential?)
    (Plan.ordered_of_current h hg) hf hso
  refine (hplain.follow (pushTangentAt_run h (h.visitable hb hβ) hs)).imp ?_
  rintro r - ⟨_, hfull, -, honly, rfl⟩
  exact ⟨honly, hfull⟩

theorem Current.full_pullGradientAt (h : p.Current g plan) (hg : g.Sound) (hb : g.Blank)
    (hf : Fitted (shapes g.value?) g.formula?) {t : NodeId} (ht : t ∈ p.targets) :
    Delivers (Roomy K) (fun r => OnlyDerivatives g r.2 ∧
      Full (fun n => (g.sizeAt t, g.sizeAt n)) plan.order r.2.differential?)
      (p.pullGradientAt t g) := by
  obtain ⟨β, hβ⟩ := hg.named
  have hplain := Plan.full_backwardUnder_seeded (τ := g.differential?)
    (Plan.ordered_of_current h hg) hf (h.describes.targets t ht) ht
  refine (hplain.follow (pullGradientAt_run h (h.visitable hb hβ) ht)).imp ?_
  rintro r - ⟨_, hfull, -, honly, rfl⟩
  exact ⟨honly, hfull⟩

theorem shapes_evaluate (p : Program (Mat K)) (hg : g.Sound) (hb : g.Blank)
    (hf : Fitted (shapes g.value?) g.formula?) :
    Delivers (Roomy K) (fun r => OnlyValues g r.2 ∧ shapes r.2.value? = shapes g.value?)
      (p.evaluate g) := by
  obtain ⟨e, he⟩ | ⟨p', plan, -, -, hlive, hbody⟩ := refused_or_body .evaluate p g
  · change Delivers _ _ (Pass.evaluate.run p g)
    rw [he]
    exact .some ⟨.refl g, rfl⟩
  · obtain ⟨β, hβ⟩ := hg.named
    have hv := hb.visitable hβ hlive
    have hnodes := (hf.evaluate plan.inner).follow
      (evaluateNodes_run fun n hn => hv n (Plan.mem_inner.mp hn).1)
    change Delivers _ _ (Pass.evaluate.run p g)
    rw [hbody, Pass.body, run_bind, Option.map_bind]
    refine hnodes.bind fun r _ hr => .some ?_
    obtain ⟨_, hshapes, honly, rfl⟩ := hr
    exact ⟨honly, hshapes⟩

variable {x : Pass} {r : Except Error Unit}

theorem shapes_run (hg : g.Sound) (hb : g.Blank) (hf : Fitted (shapes g.value?) g.formula?)
    (h : x.run p g = some ((q, r), g')) :
    shapes g'.value? = shapes g.value? ∧ g'.formula? = g.formula? := by
  by_cases hx : x = .evaluate
  · subst hx
    obtain ⟨honly, hshapes⟩ := (shapes_evaluate p hg hb hf).sound _ h
    exact ⟨hshapes, formula?_of_frame honly.frame⟩
  · have honly := onlyDerivatives_run hg hb hx h
    rw [value?_congr honly.statics, formula?_congr honly.statics]
    exact ⟨rfl, rfl⟩

/-- Evaluation and the seeded passes come to an end if there is room, whatever the
derivatives are. -/
theorem exists_run (hg : g.Sound) (hb : g.Blank) (hf : Fitted (shapes g.value?) g.formula?)
    (hx : x = .evaluate ∨ x.Seeded ∧ p.Recent g) (hroom : Roomy K) :
    ∃ r, x.run p g = some r := by
  obtain rfl | ⟨hx, hp⟩ := hx
  · exact (shapes_evaluate p hg hb hf).total hroom
  obtain ⟨e, he⟩ | ⟨plan, hcurrent, hcheck⟩ := refused_or_current hp x
  · exact ⟨_, he⟩
  cases hx with
  | pushTangentAt s =>
    exact (hcurrent.full_pushTangentAt hg hb hf (Pass.mem_sources_of_check hcheck)).total hroom
  | pullGradientAt t =>
    exact (hcurrent.full_pullGradientAt hg hb hf (Pass.mem_targets_of_check hcheck)).total hroom

theorem full_of_pushTangentAt (hp : p.Recent g) (hg : g.Sound) (hb : g.Blank)
    (hf : Fitted (shapes g.value?) g.formula?) {s : NodeId}
    (h : (Pass.pushTangentAt s).run p g = some ((q, .ok ()), g')) :
    ∃ plan, q.plan? = some plan ∧
      Full (fun n => (g'.sizeAt n, g'.sizeAt s)) plan.order g'.differential? := by
  obtain ⟨plan, hcurrent, hcheck⟩ := current_of_ok hp h
  obtain ⟨honly, hfull⟩ :=
    (hcurrent.full_pushTangentAt hg hb hf (Pass.mem_sources_of_check hcheck)).sound _ h
  refine ⟨plan, (current_iff_of_run hp h).mp hcurrent, ?_⟩
  simp only [sizeAt_congr honly.statics]
  exact hfull

theorem full_of_pullGradientAt (hp : p.Recent g) (hg : g.Sound) (hb : g.Blank)
    (hf : Fitted (shapes g.value?) g.formula?) {t : NodeId}
    (h : (Pass.pullGradientAt t).run p g = some ((q, .ok ()), g')) :
    ∃ plan, q.plan? = some plan ∧
      Full (fun n => (g'.sizeAt t, g'.sizeAt n)) plan.order g'.differential? := by
  obtain ⟨plan, hcurrent, hcheck⟩ := current_of_ok hp h
  obtain ⟨honly, hfull⟩ :=
    (hcurrent.full_pullGradientAt hg hb hf (Pass.mem_targets_of_check hcheck)).sound _ h
  refine ⟨plan, (current_iff_of_run hp h).mp hcurrent, ?_⟩
  simp only [sizeAt_congr honly.statics]
  exact hfull

end Program

end GradientGraph
