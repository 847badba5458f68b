import GradientGraph.Proofs.Program.Repetition

/-!
# What seeded passes forget

Two runs of one pass are compared, on graphs that differ in nothing but derivatives. A
forward pass reads derivatives at the sources and at nodes that it has worked off, a
reverse pass at nodes that it has cleared or that are targets. A seeded pass first gives
derivatives to the sources, or to the targets, so that it leaves the same on both graphs,
whatever passes went before.
-/

set_option autoImplicit false

namespace GradientGraph

theorem foldlM_rel {α σ : Type} {f : σ → α → Option σ} {R : List α → σ → σ → Prop}
    (xs : List α) {s t : σ} (h : R [] s t)
    (step : ∀ done x rest s t, xs = done ++ x :: rest → R done s t →
      Option.Rel (R (done ++ [x])) (f s x) (f t x)) :
    Option.Rel (R xs) (xs.foldlM f s) (xs.foldlM f t) := by
  have hloop (rest done : List α) (s t : σ) (hxs : xs = done ++ rest) (h : R done s t) :
      Option.Rel (R xs) (rest.foldlM f s) (rest.foldlM f t) := by
    induction rest generalizing done s t with
    | nil =>
      rw [List.append_nil] at hxs
      rw [hxs]
      exact .some h
    | cons x rest ih =>
      rw [List.foldlM_cons, List.foldlM_cons]
      exact rel_bind (step done x rest s t hxs h) fun s' t' h' =>
        ih (done ++ [x]) s' t' (by simpa using hxs) h'
  exact hloop xs [] s t rfl h

theorem rel_between {α α' β β' : Type} {R : α → β → Prop} {S : α' → β' → Prop}
    {T : α → α' → Prop} {x : Option α} {x' : Option α'} {y : Option β} {y' : Option β'}
    (h : Option.Rel T x x') (hy : Option.Rel R x y) (hy' : Option.Rel S x' y') :
    Option.Rel (fun b b' => ∃ a a', T a a' ∧ R a b ∧ S a' b') y y' := by
  cases h with
  | none =>
    cases hy
    cases hy'
    exact .none
  | some ha =>
    cases hy with
    | some hb =>
      cases hy' with
      | some hb' => exact .some ⟨_, _, ha, hb, hb'⟩

def AgreeOn {D : Type} (ns : List NodeId) (σ τ : NodeId → Option D) : Prop :=
  ∀ n ∈ ns, σ n = τ n

def HoldAlike {D : Type} (ns : List NodeId) (σ τ : NodeId → Option D) : Prop :=
  ∀ n ∈ ns, ∃ d, σ n = some d ∧ τ n = some d

namespace AgreeOn

variable {D : Type} {ns : List NodeId} {σ τ : NodeId → Option D}

theorem nil : AgreeOn [] σ τ := fun _ hn => absurd hn List.not_mem_nil

theorem update (h : AgreeOn ns σ τ) (m : NodeId) (d : Option D) :
    AgreeOn ns (Function.update σ m d) (Function.update τ m d) := by
  intro n hn
  by_cases hnm : n = m
  · subst hnm
    rw [Function.update_self, Function.update_self]
  · rw [Function.update_of_ne hnm, Function.update_of_ne hnm, h n hn]

theorem join (h : AgreeOn ns σ τ) (m : NodeId) (d : Option D) :
    AgreeOn (ns ++ [m]) (Function.update σ m d) (Function.update τ m d) := by
  intro n hn
  rcases List.mem_append.mp hn with hn | hn
  · exact h.update m d n hn
  · obtain rfl := List.mem_singleton.mp hn
    rw [Function.update_self, Function.update_self]

theorem findSome? (h : AgreeOn ns σ τ) : ns.findSome? σ = ns.findSome? τ := by
  induction ns with
  | nil => rfl
  | cons n ns ih =>
    rw [List.findSome?_cons, List.findSome?_cons, h n (List.mem_cons_self ..),
      ih fun m hm => h m (List.mem_cons_of_mem n hm)]

theorem give (f : NodeId → Option D) (ns : List NodeId) (σ τ : NodeId → Option D) :
    Option.Rel (AgreeOn ns) (ns.foldlM (giveStep f) σ) (ns.foldlM (giveStep f) τ) := by
  refine foldlM_rel ns nil fun done m rest σ τ _ h => ?_
  unfold giveStep
  cases f m with
  | none => exact .none
  | some d => exact .some (h.join m (some d))

theorem fill (h : AgreeOn ns σ τ) (f : NodeId → Option D) :
    Option.Rel (HoldAlike ns) (ns.foldlM (fillStep f) σ) (ns.foldlM (fillStep f) τ) := by
  have hloop : Option.Rel (fun σ τ => AgreeOn ns σ τ ∧ ∀ n ∈ ns, (σ n).isSome)
      (ns.foldlM (fillStep f) σ) (ns.foldlM (fillStep f) τ) := by
    refine foldlM_rel (R := fun done σ τ => AgreeOn ns σ τ ∧ ∀ n ∈ done, (σ n).isSome) ns
      ⟨h, by simp⟩ ?_
    rintro done m rest σ τ hns ⟨h, hdone⟩
    have hm : σ m = τ m := h m (by simp [hns])
    unfold fillStep giveStep
    rw [hm]
    cases hd : τ m with
    | some d =>
      refine .some ⟨h, fun n hn => ?_⟩
      rcases List.mem_append.mp hn with hn | hn
      · exact hdone n hn
      · rw [List.mem_singleton.mp hn, hm, hd]
        rfl
    | none =>
      cases f m with
      | none => exact .none
      | some d =>
        refine .some ⟨h.update m (some d), fun n hn => ?_⟩
        change (Function.update σ m (some d) n).isSome
        by_cases hnm : n = m
        · rw [hnm, Function.update_self]
          rfl
        · rw [Function.update_of_ne hnm]
          exact hdone n (by simpa [hnm] using hn)
  refine rel_imp hloop ?_
  rintro σ τ - ⟨h, hall⟩ n hn
  obtain ⟨d, hd⟩ := Option.isSome_iff_exists.mp (hall n hn)
  exact ⟨d, hd, (h n hn).symm.trans hd⟩

section Flowing

variable {K : Type} [Differential K D]

theorem addFlows (h : AgreeOn ns σ τ) {ps : List (NodeId × D)} (hps : ∀ q ∈ ps, q.1 ∈ ns) :
    Option.Rel (AgreeOn ns) (GradientGraph.addFlows (K := K) σ ps)
      (GradientGraph.addFlows (K := K) τ ps) := by
  refine foldlM_rel (R := fun _ => AgreeOn ns) ps h fun done q rest σ τ hns h => ?_
  have hq : q.1 ∈ ns := hps q (by simp [hns])
  unfold addFlow
  rw [h q.1 hq]
  cases added (τ q.1) q.2 with
  | none => exact .none
  | some d => exact .some (h.update q.1 (some d))

end Flowing

end AgreeOn

section Steps

variable {K D : Type} [Zero K] [One K] [Add K] [Mul K] [MulAdd K] [Capacity K] [NatCast K]
  [Calculus K] [Differential K D] {ρ : NodeId → Option (Value K)}
  {φ : NodeId → Option (Formula K)} {σ τ : NodeId → Option D} {ns : List NodeId} {n : NodeId}

theorem pushStep_rel (h : AgreeOn ns σ τ) {a : Formula K} (ha : φ n = some a)
    (hreads : ∀ c ∈ a.expression.reads, c ∈ ns) :
    Option.Rel (AgreeOn (ns ++ [n])) (pushStep ρ φ σ n) (pushStep ρ φ τ n) := by
  simp only [pushStep, ha]
  rw [Expression.tangentUnder_congr fun c hc => h c (hreads c hc)]
  cases a.expression.tangentUnder ρ τ with
  | none => exact .none
  | some t => exact .some (h.join n t)

theorem pullStep_rel (h : AgreeOn ns σ τ) (hn : n ∈ ns)
    (hreads : ∀ a, φ n = some a → ∀ c ∈ a.expression.reads, c ∈ ns) :
    Option.Rel (AgreeOn ns) (pullStep ρ φ σ n) (pullStep ρ φ τ n) := by
  unfold pullStep
  rw [h n hn]
  cases ha : φ n with
  | none => exact .some h
  | some a =>
    cases τ n with
    | none => exact .some h
    | some d =>
      refine rel_bind_same _ fun ps hps => h.addFlows fun q hq => ?_
      exact hreads a ha _ (Expression.mem_reads_of_flows hps q hq)

namespace Plan

variable {p : Plan} {targets : NodeSet}

/-- What a forward pass leaves in the plan depends on what the sources hold. -/
theorem forwardUnder_rel (ho : p.Ordered φ) (h : AgreeOn p.outer σ τ) :
    Option.Rel (HoldAlike p.order) (p.forwardUnder ρ φ σ) (p.forwardUnder ρ φ τ) := by
  have hwidth : p.widthUnder σ = p.widthUnder τ := by rw [widthUnder, widthUnder, h.findSome?]
  unfold forwardUnder
  rw [hwidth]
  -- the sources and the nodes worked off so far agree
  have hpush := foldlM_rel (f := pushStep ρ φ)
    (R := fun done => AgreeOn (p.outer ++ done)) p.inner (by simpa using h)
    fun done n rest σ τ hsplit h => by
      obtain ⟨a, ha⟩ := ho.computed n (by simp [hsplit])
      rw [← List.append_assoc]
      exact pushStep_rel h ha fun c hc =>
        List.mem_append.mpr (ho.reads done n rest hsplit a ha c hc)
  refine rel_bind hpush fun σ τ h => AgreeOn.fill (fun n hn => h n ?_) _
  exact List.mem_append.mpr (mem_order_iff.mp hn)

theorem backwardUnder_rel (ho : p.Ordered φ) (h : AgreeOn (p.order.filter (· ∈ targets)) σ τ) :
    Option.Rel (HoldAlike p.order) (p.backwardUnder targets ρ φ σ)
      (p.backwardUnder targets ρ φ τ) := by
  -- what is no target is cleared, so all nodes of the plan agree to begin with
  have hcleared : AgreeOn p.order (p.cleared targets σ) (p.cleared targets τ) := by
    intro n hn
    unfold cleared
    split
    · rfl
    · rename_i hnot
      exact h n (List.mem_filter.mpr ⟨hn, by simpa [hn] using hnot⟩)
  have hheight : p.heightUnder targets (p.cleared targets σ) =
      p.heightUnder targets (p.cleared targets τ) := by
    have hfilter : AgreeOn (p.order.filter (· ∈ targets)) (p.cleared targets σ)
        (p.cleared targets τ) := fun n hn => hcleared n (List.mem_filter.mp hn).1
    rw [heightUnder, heightUnder, hfilter.findSome?]
  unfold backwardUnder
  rw [hheight]
  have hpull := foldlM_rel (f := pullStep ρ φ)
    (R := fun _ => AgreeOn p.order) p.inner.reverse hcleared fun done n rest σ τ hsplit h => by
      have hn : n ∈ p.inner := List.mem_reverse.mp (by simp [hsplit])
      exact pullStep_rel h (mem_inner.mp hn).1 fun a ha c hc => ho.reads_order hn ha hc
  exact rel_bind hpull fun σ τ h => h.fill _

end Plan

end Steps

namespace Pass

/-- Whether the pass gives derivatives to all that it starts from. -/
inductive Seeded : Pass → Prop where
  | pushTangentAt (s : NodeId) : Seeded (.pushTangentAt s)
  | pullGradientAt (t : NodeId) : Seeded (.pullGradientAt t)

end Pass

namespace Graph

variable {K D : Type} {g g' : Graph K D}

theorem skeleton_of_statics (h : g'.statics = g.statics) : g'.skeleton = g.skeleton := by
  have hstatics (g : Graph K D) : g.statics.mapContent (·.2) = g.skeleton := by
    simp [statics, skeleton, Arena.mapContent, Function.comp_def]
  rw [← hstatics, h, hstatics]

theorem Blank.congr (h : g.Blank) (hg : OnlyDerivatives g g') : g'.Blank :=
  ⟨hg.values.trans h.1, hg.tangents.trans h.2⟩

end Graph

namespace Program

open GradientGraph.Graph

section Alike

variable {K D : Type} {p q : Program D} {g g₁ g₂ : Graph K D} {plan : Plan}

theorem Current.copy (h : p.Current g plan) (htargets : q.targets = p.targets)
    (hsources : q.sources = p.sources) (hkept : q.plan? = none ∨ q.plan? = some plan) :
    q.Current g plan := by
  refine ⟨?_, hkept⟩
  rw [Program.build, htargets, hsources]
  exact h.build

/-- A pass goes ahead in both runs, and leaves the same in the plan. -/
structure Alike (plan : Plan) (r r' : (Program D × Except Error Unit) × Graph K D) : Prop where
  left : r.1.2 = .ok ()
  right : r'.1.2 = .ok ()
  same : HoldAlike plan.order r.2.differential? r'.2.differential?

theorem Succeeds.alike {x y : Option (NodeId → Option D)}
    {r r' : Option ((Program D × Except Error Unit) × Graph K D)}
    (h : Option.Rel (HoldAlike plan.order) x y) (hr : Option.Rel (Succeeds g₁) x r)
    (hr' : Option.Rel (Succeeds g₂) y r') : Option.Rel (Alike plan) r r' := by
  refine rel_imp (rel_between h hr hr') ?_
  rintro r r' - ⟨_, _, hsame, ⟨hok, -, rfl⟩, ⟨hok', -, rfl⟩⟩
  exact ⟨hok, hok', hsame⟩

end Alike

variable {K D : Type} [Zero K] [One K] [Add K] [Mul K] [MulAdd K] [Capacity K] [NatCast K]
  [Calculus K] [Differential K D] {x : Pass} {p p₁ p₂ q q₁ : Program D}
  {g g' g₁ g₂ g₁' : Graph K D} {plan : Plan}

theorem Current.seeded_alike (hx : x.Seeded) (h₁ : p₁.Current g₁ plan)
    (h₂ : p₂.Current g₂ plan) (hg : g₁.Sound) (hb₁ : g₁.Blank) (hb₂ : g₂.Blank)
    (hstatics : g₂.statics = g₁.statics) (htargets : p₂.targets = p₁.targets)
    (hcheck : x.check p₁ plan = .ok ()) :
    Option.Rel (Alike plan) (x.run p₁ g₁) (x.run p₂ g₂) := by
  obtain ⟨β, hβ⟩ := hg.named
  have ho := Plan.ordered_of_current h₁ hg
  have hv₁ := h₁.visitable hb₁ hβ
  have hv₂ : plan.Visitable β g₂ := by
    refine h₂.visitable hb₂ ?_
    rw [formula?_congr hstatics]
    exact hβ
  cases hx with
  | pushTangentAt s =>
    have hs := Pass.mem_sources_of_check hcheck
    have hrun₂ := pushTangentAt_run h₂ hv₂ hs
    rw [value?_congr hstatics, formula?_congr hstatics] at hrun₂
    refine Succeeds.alike ?_ (pushTangentAt_run h₁ hv₁ hs) hrun₂
    exact rel_bind (AgreeOn.give _ _ _ _) fun σ τ h => Plan.forwardUnder_rel ho h
  | pullGradientAt t =>
    have ht := Pass.mem_targets_of_check hcheck
    have hrun₂ := pullGradientAt_run h₂ hv₂ (by rwa [htargets])
    rw [value?_congr hstatics, formula?_congr hstatics, htargets] at hrun₂
    refine Succeeds.alike ?_ (pullGradientAt_run h₁ hv₁ ht) hrun₂
    exact rel_bind (AgreeOn.give _ _ _ _) fun σ τ h => Plan.backwardUnder_rel ho h

/-- A pass is refused, or its program has a current plan. -/
theorem refused_or_current (hp : p.Recent g) (x : Pass) :
    (∃ e, x.run p g = some (((p.ready g).1, .error e), g)) ∨
      ∃ plan, p.Current g plan ∧ x.check p plan = .ok () := by
  obtain he | ⟨p', plan, hready, hcheck, hlive, -⟩ := refused_or_body x p g
  · exact .inl he
  · exact .inr ⟨plan, current_of_ready hp hready hlive, hcheck⟩

theorem current_of_ok (hp : p.Recent g) (h : x.run p g = some ((q, .ok ()), g')) :
    ∃ plan, p.Current g plan ∧ x.check p plan = .ok () := by
  refine (refused_or_current hp x).resolve_left ?_
  rintro ⟨e, he⟩
  rw [h] at he
  cases he

/-- How the program and the graph are after some differentiating passes, of any kind and
in any order, be they refused or not. -/
inductive Differentiated (p : Program D) (g : Graph K D) : Program D → Graph K D → Prop where
  | none : Differentiated p g p g
  | pass {q q' : Program D} {h h' : Graph K D} {r : Except Error Unit} (x : Pass) :
    Differentiated p g q h → x ≠ .evaluate → x.run q h = some ((q', r), h') →
      Differentiated p g q' h'

/-- The program goes on to have the plan that it had, and the graph its values, formulas
and edges. -/
theorem Differentiated.keeps (h : Differentiated p g q g') (hp : p.Current g plan)
    (hg : g.Sound) (hb : g.Blank) :
    q.Current g' plan ∧ q.targets = p.targets ∧ OnlyDerivatives g g' := by
  induction h with
  | none => exact ⟨hp, rfl, .refl g⟩
  | @pass q q' h h' r x _ hx hrun ih =>
    obtain ⟨hq, htargets, honly⟩ := ih
    have hsound := hg.congr (skeleton_of_statics honly.statics)
    have hstep := onlyDerivatives_run hsound (hb.congr honly) hx hrun
    obtain ⟨hstate, htargets', hsources', -⟩ := run_program hrun
    refine ⟨?_, htargets'.trans htargets, honly.trans hstep⟩
    refine (hq.congr (skeleton_of_statics hstep.statics)).copy htargets' hsources' (.inr ?_)
    rw [plan?, hstate, hq.ready]

/-- A seeded pass that goes ahead leaves the same derivatives at all nodes of its plan
whatever the derivatives were and whatever seeds a program with the same targets and
sources remembers: on a graph that differs in nothing but derivatives such a program
refuses the pass, its own plan being old, or leaves the same. Differentiating passes before
it make no difference, and it is not refused for them. -/
theorem seeded_forgets (hx : x.Seeded) (hg : g₁.Sound) (hb₁ : g₁.Blank) (hb₂ : g₂.Blank)
    (hstatics : g₂.statics = g₁.statics) (htargets : p₂.targets = p₁.targets)
    (hsources : p₂.sources = p₁.sources) (hp₁ : p₁.Recent g₁) (hp₂ : p₂.Recent g₂)
    (h₁ : x.run p₁ g₁ = some ((q₁, .ok ()), g₁')) :
    ∃ plan, q₁.plan? = some plan ∧
      (∃ q₂ r g₂', x.run p₂ g₂ = some ((q₂, r), g₂') ∧
        (r = .ok () → q₂.plan? = some plan ∧
          ∀ n ∈ plan.order, ∃ d, g₁'.differential? n = some d ∧ g₂'.differential? n = some d)) ∧
      ∀ p g, Differentiated p₁ g₁ p g → ∃ q g', x.run p g = some ((q, .ok ()), g') ∧
        q.plan? = some plan ∧
          ∀ n ∈ plan.order, ∃ d, g₁'.differential? n = some d ∧ g'.differential? n = some d := by
  obtain ⟨plan, hcurrent, hcheck⟩ := current_of_ok hp₁ h₁
  refine ⟨plan, (current_iff_of_run hp₁ h₁).mp hcurrent, ?_, ?_⟩
  · obtain ⟨e, he⟩ | ⟨plan₂, hcurrent₂, -⟩ := refused_or_current hp₂ x
    · exact ⟨_, _, _, he, nofun⟩
    · have hsame := (hcurrent.congr (skeleton_of_statics hstatics)).build
      obtain rfl : plan₂ = plan := by
        have hbuild := hcurrent₂.build
        simp only [Program.build, htargets, hsources] at hbuild hsame
        exact Except.ok.inj (hbuild.symm.trans hsame)
      obtain ⟨⟨⟨q₂, _⟩, g₂'⟩, h₂, halike⟩ := rel_left
        (hcurrent.seeded_alike hx hcurrent₂ hg hb₁ hb₂ hstatics htargets hcheck) h₁
      obtain rfl := halike.right
      exact ⟨q₂, _, g₂', h₂, fun _ => ⟨(current_iff_of_run hp₂ h₂).mp hcurrent₂, halike.same⟩⟩
  · intro p g hd
    obtain ⟨hp, ht, honly⟩ := hd.keeps hcurrent hg hb₁
    obtain ⟨⟨⟨q, _⟩, g'⟩, h, halike⟩ := rel_left
      (hcurrent.seeded_alike hx hp hg hb₁ (hb₁.congr honly) honly.statics ht hcheck) h₁
    obtain rfl := halike.right
    exact ⟨q, g', h, (current_iff_of_run hp.recent h).mp hp, halike.same⟩

end Program

namespace Doubling.Seeded

def planned {D : Type} (seeds : List (Seed D)) : Program D :=
  { (program : Program D) with state := .compiled plan, seeds }

theorem current_planned {K D : Type} [Zero K] [Calculus K] (op : BinOp) (x : K)
    (a b : Option (Stamped D)) (next : Nat) (seeds : List (Seed D)) :
    (planned seeds).Current (seeded op x a b next : Workbench K D).graph plan := by
  obtain ⟨_, hstate, hcurrent, -⟩ := Program.current_of_compile (compile_program op x a b next)
  cases hstate
  exact ⟨hcurrent.build, .inr rfl⟩

end Doubling.Seeded

/-- A computed variable and the one that it reads, with derivatives set in two ways, and a
program without seeds and one with a seed. The variable is read twice, and the reverse pass
finds so in both cases. -/
theorem Program.pullGradientAt_forgets : ∃ q₁ g₁ q₂ g₂,
    (Pass.pullGradientAt Twice.target).run (Doubling.Seeded.planned [])
        (Doubling.Seeded.seeded .add 3 (some ⟨1, 4⟩) (some ⟨0, 7⟩) 2 :
          Workbench Float Float).graph = some ((q₁, .ok ()), g₁) ∧
      (Pass.pullGradientAt Twice.target).run
        (Doubling.Seeded.planned [⟨Twice.target, ⟨0, 5⟩, none⟩])
        (Doubling.Seeded.seeded .add 3 none (some ⟨0, 5⟩) 1 : Workbench Float Float).graph =
          some ((q₂, .ok ()), g₂) ∧
      g₁.differential? Twice.source = some 2 ∧
      ∀ n ∈ Doubling.Seeded.plan.order,
        ∃ d, g₁.differential? n = some d ∧ g₂.differential? n = some d := by
  obtain ⟨q₁, g₁, h₁, hplan₁, htwo⟩ : ∃ q₁ g₁,
      (Pass.pullGradientAt Twice.target).run (Doubling.Seeded.planned [])
        (Doubling.Seeded.seeded .add 3 (some ⟨1, 4⟩) (some ⟨0, 7⟩) 2 :
          Workbench Float Float).graph = some ((q₁, .ok ()), g₁) ∧
      q₁.plan? = some Doubling.Seeded.plan ∧ g₁.differential? Twice.source = some 2 :=
    ⟨_, _, rfl, rfl, by decide +kernel⟩
  obtain ⟨q₂, g₂, h₂⟩ : ∃ q₂ g₂, (Pass.pullGradientAt Twice.target).run
      (Doubling.Seeded.planned [⟨Twice.target, ⟨0, 5⟩, none⟩])
      (Doubling.Seeded.seeded .add 3 none (some ⟨0, 5⟩) 1 : Workbench Float Float).graph =
        some ((q₂, .ok ()), g₂) := ⟨_, _, rfl⟩
  have hsound := (Setting.Reachable.workbench
    (Doubling.Seeded.unprobed_both (D := Float) .add (3 : Float) 4 7).reachable).sound
  have hstatics : (Doubling.Seeded.seeded .add 3 none (some ⟨0, 5⟩) 1 :
      Workbench Float Float).graph.statics = (Doubling.Seeded.seeded .add 3 (some ⟨1, 4⟩)
        (some ⟨0, 7⟩) 2 : Workbench Float Float).graph.statics := by
    simp [Graph.statics, Arena.mapContent, Doubling.Seeded.seeded]
  obtain ⟨plan, hplan, ⟨_, _, _, h, hsame⟩, -⟩ := seeded_forgets (.pullGradientAt _) hsound
    ⟨rfl, rfl⟩ ⟨rfl, rfl⟩ hstatics rfl rfl (Doubling.Seeded.current_planned ..).recent
    (Doubling.Seeded.current_planned ..).recent h₁
  obtain rfl : Doubling.Seeded.plan = plan := Option.some.inj (hplan₁.symm.trans hplan)
  cases h₂.symm.trans h
  exact ⟨q₁, g₁, q₂, g₂, h₁, h₂, htwo, (hsame rfl).2⟩

/-- Derivatives from before show where a plan is taken for fresh because generations have
come round: the variable that it does not know holds one or none. And a seeded pass tells
apart formulas that read the same and have the same value, here 2 + 2 and 2 * 2. -/
theorem Program.pushTangentAt_differs :
    let p : Program Float := { Twice.program with state := .compiled Twice.plan }
    let x : Pass := .pushTangentAt Twice.source
    let old (t : Option (Stamped Float)) (next : Nat) : Graph Float Float :=
      (Recycling.wrapped (.scalar 3) (.scalar 5) none t next).graph
    let young (op : BinOp) : Graph Float Float := (Doubling.computed op 2).graph
    (∃ g g', Reached (old (some ⟨0, 1⟩) 1) [p] ∧ Reached (old none 0) [p] ∧
      (old none 0).Blank ∧ (old (some ⟨0, 1⟩) 1).Blank ∧
      (old none 0).statics = (old (some ⟨0, 1⟩) 1).statics ∧
      x.run p (old (some ⟨0, 1⟩) 1) = some ((p, .ok ()), g) ∧
      x.run p (old none 0) = some ((p, .ok ()), g') ∧
      g.differential? Twice.target = some 1 ∧ g'.differential? Twice.target = some 0) ∧
    ∃ g g', Reached (young .add) [p] ∧ Reached (young .mul) [p] ∧
      (young .add).Blank ∧ (young .mul).Blank ∧
      (young .add).arena.ids = Twice.plan.order ∧ (young .mul).arena.ids = Twice.plan.order ∧
      (∀ n ∈ Twice.plan.order,
        (young .add).arena.children? n = (young .mul).arena.children? n ∧
        (young .add).arena.version? n = (young .mul).arena.version? n ∧
        (young .add).value? n = (young .mul).value? n) ∧
      x.run p (young .add) = some ((p, .ok ()), g) ∧
      x.run p (young .mul) = some ((p, .ok ()), g') ∧
      g.differential? Twice.target = some 2 ∧ g'.differential? Twice.target = some 4 := by
  intro p x old young
  constructor
  · have hset : (Recycling.wrapped (.scalar 3) (.scalar 5) none (some ⟨0, 1⟩) 1 :
        Workbench Float Float).Reachable :=
      (Recycling.unprobed_wrapped_one (D := Float) (.scalar 3) (.scalar 5) 1).reachable
    have hunset : (Recycling.wrapped (.scalar 3) (.scalar 5) none none 0 :
        Workbench Float Float).Reachable :=
      (Recycling.unprobed_wrapped (D := Float) (.scalar 3) (.scalar 5)).reachable
    exact ⟨_, _, .workbench hset, .workbench hunset, ⟨rfl, rfl⟩, ⟨rfl, rfl⟩, by
      simp [Graph.statics, Arena.mapContent, old, Recycling.wrapped], rfl, rfl, rfl, rfl⟩
  · have hyoung (op : BinOp) : Reached (young op) [p] :=
      .workbench (Doubling.reachable (D := Float) op 2)
    have hvalue : (young .add).value? Twice.target = (young .mul).value? Twice.target :=
      congrArg (some <| Value.scalar ·) (by decide +kernel : (2 : Float) + 2 = 2 * 2)
    have hruns (op : BinOp) (d : Float)
        (hd : (x.run p (young op)).bind (·.2.differential? Twice.target) = some d) :
        ∃ g, x.run p (young op) = some ((p, .ok ()), g) ∧ g.differential? Twice.target = some d :=
      ⟨_, rfl, hd⟩
    obtain ⟨g, hadd, htwo⟩ := hruns .add 2 (by decide +kernel)
    obtain ⟨g', hmul, hfour⟩ := hruns .mul 4 (by decide +kernel)
    refine ⟨g, g', hyoung .add, hyoung .mul, ⟨rfl, rfl⟩, ⟨rfl, rfl⟩, rfl, rfl, ?_, hadd, hmul,
      htwo, hfour⟩
    intro n hn
    obtain rfl | rfl : n = Twice.source ∨ n = Twice.target := by simpa [Twice.plan] using hn
    · exact ⟨rfl, rfl, rfl⟩
    · exact ⟨rfl, rfl, hvalue⟩

end GradientGraph
