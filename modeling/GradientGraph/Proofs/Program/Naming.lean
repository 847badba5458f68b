import GradientGraph.Proofs.Graph.Context
import GradientGraph.Proofs.Program.History
import GradientGraph.Proofs.Program.Onward
import GradientGraph.Proofs.Program.Partition

/-!
# Naming a part of an expression

A part of an expression can be given a variable of its own, and read there. Two variables,
one computed from the whole expression and one from the expression with the part named, are
interchangeable: they have the same value, the same derivative in every source, and over
exact scalars a reverse pass from one leaves at the sources what it leaves from the other.
-/

set_option autoImplicit false

namespace GradientGraph

open GradientGraph.Graph Expression

namespace Graph

variable {K D : Type} {g : Graph K D} {e : Expression K} {c : Context K} {n m u z z' : NodeId}

/-- Whether the node is computed from the expression. Labels do not count, and neither does
which parts are shared: a part may stand as one shared part or in several copies. -/
def Computes (g : Graph K D) (n : NodeId) (e : Expression K) : Prop :=
  ∃ a, g.formula? n = some a ∧ a.expression.plain = e.plain

theorem Computes.plain_eq (h : g.Computes n e) {a : Formula K} (ha : g.formula? n = some a) :
    a.expression.plain = e.plain := by
  obtain ⟨b, hb, hplain⟩ := h
  obtain rfl : a = b := Option.some.inj (ha.symm.trans hb)
  exact hplain

theorem Computes.reads_eq (h : g.Computes n e) {a : Formula K} (ha : g.formula? n = some a) :
    a.expression.reads = e.reads := by
  rw [← reads_plain, h.plain_eq ha, reads_plain]

theorem leads_iff (hg : g.Sound) : Plan.Leads g.arena (·.formula.isSome) .empty n m ↔
    ∃ a, g.formula? n = some a ∧ m ∈ a.expression.reads := by
  have hchild {a : Formula K} (ha : g.formula? n = some a) :
      m ∈ Plan.childrenOf g.arena n ↔ m ∈ a.expression.reads := by
    rw [Plan.childrenOf, hg.linked n a ha]
    exact Formula.mem_children
  constructor
  · rintro ⟨⟨-, x, hx, hsome⟩, hm⟩
    obtain ⟨a, ha⟩ := Option.isSome_iff_exists.mp hsome
    have ha : g.formula? n = some a := by simp [formula?, Arena.content?, hx, ha]
    exact ⟨a, ha, (hchild ha).mp hm⟩
  · rintro ⟨a, ha, hm⟩
    obtain ⟨y, hy, hformula⟩ := Option.bind_eq_some_iff.mp ha
    obtain ⟨x, hx, rfl⟩ := Option.map_eq_some_iff.mp hy
    have hsome := Option.isSome_iff_exists.mpr ⟨a, hformula⟩
    exact ⟨⟨NodeSet.not_mem_empty, x, hx, hsome⟩, (hchild ha).mpr hm⟩

theorem Computes.leads_iff (h : g.Computes n e) (hg : g.Sound) :
    Plan.Leads g.arena (·.formula.isSome) .empty n m ↔ m ∈ e.reads := by
  obtain ⟨a, ha, -⟩ := id h
  rw [Graph.leads_iff hg, ← h.reads_eq ha]
  constructor
  · rintro ⟨b, hb, hm⟩
    obtain rfl : a = b := Option.some.inj (ha.symm.trans hb)
    exact hm
  · exact fun hm => ⟨a, ha, hm⟩

theorem Computes.contains (h : g.Computes n e) : g.arena.contains n := by
  obtain ⟨a, ha, -⟩ := h
  obtain ⟨y, hy, -⟩ := Option.bind_eq_some_iff.mp ha
  obtain ⟨x, hx, -⟩ := Option.map_eq_some_iff.mp hy
  exact Arena.contains_iff.mpr ⟨x, hx⟩

/-- The variable `u` is computed from `e`, and `z` and `z'` from the same context around it:
for `z` the expression `e` stands in the hole, for `z'` the variable `u` is read there. -/
structure Naming (g : Graph K D) (c : Context K) (e : Expression K) (u z z' : NodeId) : Prop where
  part : g.Computes u e
  whole : g.Computes z (c.fill e)
  named : g.Computes z' (c.fill (.read 0 u))

theorem Naming.congr {g' : Graph K D} (h : g.Naming c e u z z')
    (hformula : g'.formula? = g.formula?) : g'.Naming c e u z z' := by
  obtain ⟨hpart, hwhole, hnamed⟩ := h
  unfold Computes at hpart hwhole hnamed
  rw [← hformula] at hpart hwhole hnamed
  exact ⟨hpart, hwhole, hnamed⟩

theorem Naming.detour (h : g.Naming c e u z z') (hg : g.Sound) :
    Plan.Detour g.arena (·.formula.isSome) u z z' where
  onward m hm := by
    rw [h.whole.leads_iff hg, Context.mem_reads_fill] at hm
    rw [h.named.leads_iff hg, h.named.leads_iff hg, h.part.leads_iff hg, Context.mem_reads_fill,
      Context.mem_reads_fill]
    exact hm.imp .inl fun hm => ⟨.inr ⟨hm.1, List.mem_singleton_self u⟩, hm.2⟩
  back m hm := by
    rw [h.named.leads_iff hg, Context.mem_reads_fill] at hm
    rw [h.whole.leads_iff hg, Context.mem_reads_fill]
    refine hm.imp .inl fun hm => ⟨List.mem_singleton.mp hm.2, fun d hd => ?_⟩
    rw [h.part.leads_iff hg] at hd
    rw [h.whole.leads_iff hg, Context.mem_reads_fill]
    exact .inr ⟨hm.1, hd⟩

theorem Naming.mem_reads (h : g.Naming c e u z z') (hc : 0 < c.holes) {b : Formula K}
    (hb : g.formula? z' = some b) : u ∈ b.expression.reads := by
  rw [h.named.reads_eq hb, Context.mem_reads_fill]
  exact .inr ⟨hc, List.mem_singleton_self u⟩

theorem Naming.holes_pos (h : g.Naming c e u z z') {b b' : Formula K} (hb : g.formula? z = some b)
    (hb' : g.formula? z' = some b') (hu : u ∈ b'.expression.reads)
    (hnot : u ∉ b.expression.reads) : 0 < c.holes := by
  rw [h.named.reads_eq hb', Context.mem_reads_fill] at hu
  rw [h.whole.reads_eq hb, Context.mem_reads_fill] at hnot
  exact (hu.resolve_left fun hread => hnot (.inl hread)).1

section Rules

variable [Zero K] [One K] [Add K] [Mul K] [MulAdd K] [Capacity K] [NatCast K] [Calculus K]
  {ρ : NodeId → Option (Value K)} {b b' : Formula K}

theorem Computes.valueUnder_eq (h : g.Computes n e) {a : Formula K} (ha : g.formula? n = some a) :
    a.expression.valueUnder ρ = e.valueUnder ρ := by
  rw [← valueUnder_plain, h.plain_eq ha, valueUnder_plain]

theorem Naming.levels_value (h : g.Naming c e u z z') (hb : g.formula? z = some b)
    (hb' : g.formula? z' = some b') :
    Plan.Levels (Plan.valueRule g.formula?) b b' u z z' := by
  obtain ⟨a, ha, -⟩ := id h.part
  constructor
  · intro ρ hu
    rw [Plan.valueRule_eq hb', Plan.valueRule_eq hb, h.named.valueUnder_eq hb',
      h.whole.valueUnder_eq hb, Context.valueUnder_fill]
    intro hc
    have hrule := hu (h.mem_reads hc hb')
    rw [Plan.valueRule_eq ha, h.part.valueUnder_eq ha] at hrule
    obtain ⟨v, hv, hρ⟩ := Option.map_eq_some_iff.mp hrule
    rw [← hρ, hv]
  · intro ρ x hu hnot hx
    rw [Plan.valueRule_eq hb, h.whole.valueUnder_eq hb] at hx
    obtain ⟨v, hv, -⟩ := Option.map_eq_some_iff.mp hx
    obtain ⟨w, hw⟩ := Context.valueUnder_part (h.holes_pos hb hb' hu hnot) hv
    exact ⟨some w, by rw [Plan.valueRule_eq ha, h.part.valueUnder_eq ha, hw, Option.map_some]⟩

variable [Differential K D]

theorem Computes.tangentUnder_eq (h : g.Computes n e) {a : Formula K}
    (ha : g.formula? n = some a) (τ : NodeId → Option D) :
    a.expression.tangentUnder ρ τ = e.tangentUnder ρ τ := by
  rw [← tangentUnder_plain, h.plain_eq ha, tangentUnder_plain]

theorem Naming.levels_tangent (h : g.Naming c e u z z') (hb : g.formula? z = some b)
    (hb' : g.formula? z' = some b')
    (hu : u ∈ b'.expression.reads → Plan.Settles g.formula? ρ u) :
    Plan.Levels (Plan.tangentRule (D := D) ρ g.formula?) b b' u z z' := by
  obtain ⟨a, ha, -⟩ := id h.part
  constructor
  · intro τ hrule
    rw [Plan.tangentRule_eq hb', Plan.tangentRule_eq hb, h.named.tangentUnder_eq hb',
      h.whole.tangentUnder_eq hb, Context.tangentUnder_fill]
    intro hc
    have hread := h.mem_reads hc hb'
    obtain ⟨a', v, ha', hv, hρ⟩ := hu hread
    obtain rfl : a = a' := Option.some.inj (ha.symm.trans ha')
    rw [h.part.valueUnder_eq ha] at hv
    have hrule := hrule hread
    rw [Plan.tangentRule_eq ha, h.part.tangentUnder_eq ha] at hrule
    exact ⟨hρ.trans hv.symm, by rw [hρ]; rfl, hrule⟩
  · intro τ x hread hnot hx
    rw [Plan.tangentRule_eq hb, h.whole.tangentUnder_eq hb] at hx
    obtain ⟨t, ht⟩ := Context.tangentUnder_part (h.holes_pos hb hb' hread hnot) hx
    exact ⟨t, by rw [Plan.tangentRule_eq ha, h.part.tangentUnder_eq ha, ht]⟩

end Rules

end Graph

namespace Program

/-- A program with one target, nothing that holds it back, and no plan but a current one. -/
structure Single {K D : Type} (p : Program D) (g : Graph K D) (n : NodeId) : Prop where
  targets : p.targets = .ofList [n]
  sources : p.sources = .empty
  fresh : p.Fresh g

section Plans

variable {K D : Type} {g : Graph K D} {e : Expression K} {c : Context K} {n u z z' : NodeId}
  {p q : Program D} {plan plan' : Plan}

theorem Single.build (h : p.Single g n) :
    p.build g = Plan.build g.arena (·.formula.isSome) (.ofList [n]) .empty := by
  rw [Program.build, h.targets, h.sources]

theorem Single.mem_outer (h : p.Single g z) (hp : p.Current g plan) : n ∈ plan.outer ↔
    Plan.Reaches g.arena (·.formula.isSome) (.ofList [z]) .empty n ∧ g.formula? n = none := by
  have horders := Plan.build_orders (h.build ▸ hp.build)
  rw [Plan.mem_outer, hp.sources_iff, h.sources, horders.members]
  simp

theorem Single.mem_inner (h : p.Single g z) (hp : p.Current g plan) : n ∈ plan.inner ↔
    Plan.Reaches g.arena (·.formula.isSome) (.ofList [z]) .empty n ∧
      ∃ a, g.formula? n = some a := by
  have horders := Plan.build_orders (h.build ▸ hp.build)
  rw [Plan.mem_inner, hp.sources_iff, h.sources, horders.members, ← Option.ne_none_iff_exists']
  simp +contextual

theorem Single.exists_current (h : p.Single g z) (hp : p.Current g plan) (hq : q.Single g z')
    (hnaming : g.Naming c e u z z') (hg : g.Sound) : ∃ plan', q.Current g plan' := by
  obtain ⟨plan', hplan'⟩ := (hnaming.detour hg).build (h.build ▸ hp.build)
    hnaming.named.contains hnaming.part.contains
  exact ⟨plan', hq.fresh.current (hq.build.trans hplan')⟩

theorem parallel (hnaming : g.Naming c e u z z') (hg : g.Sound) (hp : p.Single g z)
    (hq : q.Single g z') (hplan : p.Current g plan) (hplan' : q.Current g plan') {b b' : Formula K}
    (hb : g.formula? z = some b) (hb' : g.formula? z' = some b') :
    plan.Parallel plan' g.formula? b b' u z z' := by
  have hdetour := hnaming.detour hg
  have hacyclic := (Plan.build_ok_iff.mp ⟨plan, hp.build ▸ hplan.build⟩).2
  have hacyclic' := (Plan.build_ok_iff.mp ⟨plan', hq.build ▸ hplan'.build⟩).2
  obtain ⟨a, ha, -⟩ := hnaming.part
  exact
    { left := hb
      right := hb'
      target := (hp.mem_inner hplan).mpr ⟨Plan.reaches_self, b, hb⟩
      target' := (hq.mem_inner hplan').mpr ⟨Plan.reaches_self, b', hb'⟩
      outer := by
        intro n
        -- what has no formula is neither of the targets, nor `u`
        rw [hp.mem_outer hplan, hq.mem_outer hplan']
        constructor
        · rintro ⟨hn, hnone⟩
          refine ⟨(hdetour.reaches hn).resolve_left ?_, hnone⟩
          rintro rfl
          rw [hb] at hnone
          cases hnone
        · rintro ⟨hn, hnone⟩
          refine ⟨?_, hnone⟩
          rcases hdetour.reached hn with rfl | ⟨rfl, -⟩ | hn
          · rw [hb'] at hnone
            cases hnone
          · rw [ha] at hnone
            cases hnone
          · exact hn
      onward := by
        intro n hn
        obtain ⟨hn, hcomputed⟩ := (hp.mem_inner hplan).mp hn
        exact (hdetour.reaches hn).imp_right fun hn => (hq.mem_inner hplan').mpr ⟨hn, hcomputed⟩
      back := by
        intro n hn
        obtain ⟨hn, hcomputed⟩ := (hq.mem_inner hplan').mp hn
        refine (hdetour.reached hn).imp_right (Or.imp (And.imp_right fun hu => ?_) fun hn =>
          (hp.mem_inner hplan).mpr ⟨hn, hcomputed⟩)
        obtain ⟨d, hd, hu⟩ := (leads_iff hg).mp hu
        obtain rfl : b' = d := Option.some.inj (hb'.symm.trans hd)
        exact hu
      part := fun hu => (hq.mem_inner hplan').mpr
        ⟨.child Plan.reaches_self ((leads_iff hg).mpr ⟨b', hb', hu⟩), a, ha⟩
      unread := fun n hn d hd hz => Plan.not_leads_back hacyclic ((hp.mem_inner hplan).mp hn).1
        ((leads_iff hg).mpr ⟨d, hd, hz⟩)
      unread' := fun n hn d hd hz => Plan.not_leads_back hacyclic' ((hq.mem_inner hplan').mp hn).1
        ((leads_iff hg).mpr ⟨d, hd, hz⟩) }

end Plans

section Passes

variable {K D : Type} [Zero K] [One K] [Add K] [Mul K] [MulAdd K] [Capacity K] [NatCast K]
  [Calculus K] {g h h' : Graph K D} {u z z' s : NodeId} {p q : Program D} {plan plan' : Plan}
  {c : Context K} {e : Expression K}

def evaluateBoth (p q : Program D) :
    GraphM K D ((Program D × Except Error Unit) × (Program D × Except Error Unit)) := do
  let x ← p.evaluate
  let y ← q.evaluate
  return (x, y)

theorem Current.isSome_evaluate (hp : p.Current g plan) (hg : g.Sound) (hb : g.Blank) :
    (p.evaluate g).isSome ↔ (plan.evaluateUnder g.formula? g.value?).isSome := by
  obtain ⟨β, hβ⟩ := hg.named
  have hrun := hp.evaluate_run fun n hn => hp.visitable hb hβ n (Plan.mem_inner.mp hn).1
  generalize plan.evaluateUnder g.formula? g.value? = x at hrun ⊢
  generalize p.evaluate g = y at hrun ⊢
  cases hrun with
  | none => exact Iff.rfl
  | some _ => exact Iff.rfl

/-- Programs for `z` and for `z'`, with nothing that holds them back, on a graph whose formulas
can be put in order and in which no evaluator remembers anything. -/
structure Compared (p q : Program D) (g : Graph K D) (plan : Plan) (c : Context K)
    (e : Expression K) (u z z' : NodeId) : Prop where
  sound : g.Sound
  blank : g.Blank
  naming : g.Naming c e u z z'
  left : p.Single g z
  right : q.Single g z'
  acyclic : p.build g = .ok plan

/-- Programs for `z` and for `z'` on a graph in which both were evaluated. -/
structure Abreast (p q : Program D) (g : Graph K D) (plan plan' : Plan) (c : Context K)
    (e : Expression K) (u z z' : NodeId) : Prop where
  sound : g.Sound
  blank : g.Blank
  naming : g.Naming c e u z z'
  left : p.Current g plan
  right : q.Current g plan'
  parallel : ∃ b b', plan.Parallel plan' g.formula? b b' u z z'
  consistent : plan.Consistent g.formula? g.value?
  consistent' : plan'.Consistent g.formula? g.value?
  value : g.value? z' = g.value? z

theorem Abreast.sources_iff (ha : Abreast p q g plan plan' c e u z z') {n : NodeId} :
    n ∈ plan'.sources ↔ n ∈ plan.sources := by
  obtain ⟨b, b', hpar⟩ := ha.parallel
  rw [← ha.left.mem_outer_iff, ← ha.right.mem_outer_iff, hpar.outer]

theorem Abreast.congr (ha : Abreast p q g plan plan' c e u z z') (hh : OnlyDerivatives g h) :
    Abreast p q h plan plan' c e u z z' := by
  have hskeleton := skeleton_of_statics hh.statics
  have hvalue := value?_congr hh.statics
  have hformula := formula?_congr hh.statics
  refine ⟨ha.sound.congr hskeleton, ha.blank.congr hh, ha.naming.congr hformula,
    ha.left.congr hskeleton, ha.right.congr hskeleton, ?_, ?_, ?_, ?_⟩
  · rw [hformula]
    exact ha.parallel
  · rw [hformula, hvalue]
    exact ha.consistent
  · rw [hformula, hvalue]
    exact ha.consistent'
  · rw [hvalue]
    exact ha.value

/-- If one of the targets can be evaluated both can, in either order and with the same end,
and they then have one value. -/
theorem Compared.evaluate (hc : Compared p q g plan c e u z z')
    (hfit : (p.evaluate g).isSome ∨ (q.evaluate g).isSome) :
    ∃ plan' p₁ q₁ g₂ v, q.build g = .ok plan' ∧
      p.evaluateBoth q g = some (((p₁, .ok ()), (q₁, .ok ())), g₂) ∧
      q.evaluateBoth p g = some (((q₁, .ok ()), (p₁, .ok ())), g₂) ∧
      g₂.value? z = some v ∧ p₁.targets = p.targets ∧ q₁.targets = q.targets ∧
      Abreast p₁ q₁ g₂ plan plan' c e u z z' := by
  have hp := hc.left.fresh.current hc.acyclic
  obtain ⟨plan', hq⟩ := hc.left.exists_current hp hc.right hc.naming hc.sound
  obtain ⟨b, hb, -⟩ := id hc.naming.whole
  obtain ⟨b', hb', -⟩ := id hc.naming.named
  have hpar := parallel hc.naming hc.sound hc.left hc.right hp hq hb hb'
  have ho := Plan.ordered_of_current hp hc.sound
  have ho' := Plan.ordered_of_current hq hc.sound
  rw [hp.isSome_evaluate hc.sound hc.blank, hq.isSome_evaluate hc.sound hc.blank,
    Plan.evaluateUnder_eq_work, Plan.evaluateUnder_eq_work] at hfit
  obtain ⟨τ, hτ, hτ', hsolves, hsolves', hz⟩ :=
    hpar.work_both ho ho' Plan.valueRule_local (hc.naming.levels_value hb hb') hfit
  rw [← Plan.evaluateStep_eq_work] at hτ hτ'
  obtain ⟨⟨_, g₂⟩, hrun, rfl, hvalues, rfl⟩ :=
    rel_left (hp.evaluate_parts hq hc.sound hc.blank) hτ
  obtain ⟨⟨_, g₂'⟩, hrun', rfl, hvalues', hsame⟩ :=
    rel_left (hq.evaluate_parts hp hc.sound hc.blank) hτ'
  -- the values are the same in either order, and nothing else was changed
  obtain rfl : g₂' = g₂ := hvalues'.unique hvalues hsame
  obtain ⟨-, v, -, -, hv⟩ := hsolves.consistent ho z hpar.target
  have hskeleton := skeleton_of_frame hvalues.frame
  have hformula : g₂'.formula? = g.formula? := formula?_of_frame hvalues.frame
  refine ⟨plan', _, _, g₂', v, hq.build, hrun, hrun', hv, rfl, rfl, ?_⟩
  refine ⟨hc.sound.congr hskeleton, ⟨hvalues.values.trans hc.blank.1,
    hvalues.tangents.trans hc.blank.2⟩, hc.naming.congr hformula, (hp.congr hskeleton).keep,
    (hq.congr hskeleton).keep, ⟨b, b', by rwa [hformula]⟩, ?_, ?_, hz⟩
  · rw [hformula]
    exact hsolves.consistent ho
  · rw [hformula]
    exact hsolves'.consistent ho'

theorem Compared.abreast (hc : Compared p q g plan c e u z z') {p₁ q₁ : Program D}
    {x y : Except Error Unit} (hrun : p.evaluateBoth q g = some (((p₁, x), (q₁, y)), h)) :
    p₁.targets = .ofList [z] ∧ q₁.targets = .ofList [z'] ∧
      ∃ plan', Abreast p₁ q₁ h plan plan' c e u z z' := by
  obtain ⟨_, _, hp, -⟩ := exists_of_bind hrun
  obtain ⟨plan', _, _, _, _, -, hrun', -, -, htargets, htargets', ha⟩ :=
    hc.evaluate (.inl (Option.isSome_iff_exists.mpr ⟨_, hp⟩))
  cases hrun.symm.trans hrun'
  exact ⟨htargets.trans hc.left.targets, htargets'.trans hc.right.targets, plan', ha⟩

variable [Differential K D]

theorem Current.pushTangentAt_rel (hp : p.Current g plan) (hg : g.Sound) (hb : g.Blank)
    (hh : OnlyDerivatives g h) (hs : s ∈ plan.sources) :
    Option.Rel (Succeeds h) (plan.forwardAt g.value? g.formula? s h.differential?)
      (p.pushTangentAt s h) := by
  obtain ⟨β, hβ⟩ := hg.named
  have hrun := pushTangentAt_run (hp.congr (skeleton_of_statics hh.statics))
    ((hp.visitable hb hβ).congr hh) hs
  rwa [value?_congr hh.statics, formula?_congr hh.statics] at hrun

structure SameAt (z z' : NodeId) (r r' : (Program D × Except Error Unit) × Graph K D) : Prop where
  left : r.1.2 = .ok ()
  right : r'.1.2 = .ok ()
  same : ∃ d, r.2.differential? z = some d ∧ r'.2.differential? z' = some d

variable [SteadyWidths K D]

/-- Forward passes on states that differ in derivatives from one in which both targets were
evaluated. Both go ahead if the one to `z'` does, or if the one to `z` does and there is room
for a derivative of the named part. -/
theorem Abreast.push_alike (ha : Abreast p q g plan plan' c e u z z')
    (hh : OnlyDerivatives g h) (hh' : OnlyDerivatives g h') (hs : s ∈ plan.sources)
    (hpush : (q.pushTangentAt s h').isSome ∨ (p.pushTangentAt s h).isSome ∧
      (Differential.zeros (K := K) (g.sizeAt u) (g.sizeAt s) : Option D).isSome) :
    ∃ r r', p.pushTangentAt s h = some r ∧ q.pushTangentAt s h' = some r' ∧
      SameAt z z' r r' := by
  obtain ⟨b, b', hpar⟩ := ha.parallel
  have hl := ha.naming.levels_tangent (D := D) hpar.left hpar.right fun hu =>
    ha.consistent' u (hpar.part hu)
  have ho := Plan.ordered_of_current ha.left ha.sound
  have ho' := Plan.ordered_of_current ha.right ha.sound
  have hso : s ∈ plan.outer := ha.left.mem_outer_iff.mpr hs
  have hsize : sizeUnder g.value? z' = sizeUnder g.value? z := by
    rw [sizeUnder, sizeUnder, ha.value]
  have hrun := ha.left.pushTangentAt_rel ha.sound ha.blank hh hs
  have hrun' := ha.right.pushTangentAt_rel ha.sound ha.blank hh' (ha.sources_iff.mpr hs)
  have hright : (plan'.forwardAt g.value? g.formula? s h'.differential?).isSome := by
    rcases hpush with hq | ⟨hp, hroom⟩
    · obtain ⟨r', hr'⟩ := Option.isSome_iff_exists.mp hq
      obtain ⟨υ, hυ, -⟩ := rel_right hrun' hr'
      exact Option.isSome_iff_exists.mpr ⟨υ, hυ⟩
    · obtain ⟨r, hr⟩ := Option.isSome_iff_exists.mp hp
      obtain ⟨ω, hω, -⟩ := rel_right hrun hr
      exact hpar.forward_right ho ho' hl hso hsize hω hroom
  obtain ⟨υ, hυ⟩ := Option.isSome_iff_exists.mp hright
  obtain ⟨ω, d, hω, hd, hd'⟩ := hpar.forward_left ho ho' hl hso hsize (τ := h.differential?) hυ
  obtain ⟨r, hr, hok, -, rfl⟩ := rel_left hrun hω
  obtain ⟨r', hr', hok', -, rfl⟩ := rel_left hrun' hυ
  exact ⟨r, r', hr, hr', hok, hok', d, hd, hd'⟩

end Passes

end Program

end GradientGraph
