import GradientGraph.Proofs.Derivative.Agreement
import GradientGraph.Proofs.Derivative.Context
import GradientGraph.Proofs.Program.Naming

/-!
# Gradients through a named part

The reverse pass takes a gradient straight through a part that stands in an expression, once
for every place where it stands. At a variable it sums up first what arrives. Over exact
scalars both passes of either form stand for one map, and so the sources receive the same.
-/

set_option autoImplicit false

namespace GradientGraph
noncomputable section

open GradientGraph.Differential ExactDifferential GradientGraph.Graph Expression

section Exact

variable {K D : Type} [CommRing K] [Calculus K] {g h h' : Graph K D} {e : Expression K}
  {c : Context K} {n s u z z' : NodeId} {p q : Program D} {plan plan' : Plan}

theorem Graph.Computes.yields_iff (hn : g.Computes n e) {a : Formula K}
    (ha : g.formula? n = some a) {Serves : Nat → Prop} {ρ : NodeId → Option (Value K)}
    {v : Value K} : a.expression.Yields Serves ρ v ↔ e.Yields Serves ρ v := by
  rw [← yields_plain, hn.plain_eq ha, yields_plain]

theorem Plan.Consistent.fits_mat {ρ : NodeId → Option (Value K)} {φ : NodeId → Option (Formula K)}
    (hc : plan.Consistent φ ρ) : plan.Fits (Mat K) ρ φ := by
  apply Plan.fits_mat
  intro n hn a ha
  obtain ⟨b, v, hb, hv, hvalue⟩ := hc n hn
  obtain rfl : a = b := Option.some.inj (ha.symm.trans hb)
  exact ⟨v, hv, by rw [sizeUnder, hvalue]; rfl⟩

namespace Program

variable [Differential K D] [Tabulated K D] [ExactDifferential K D]

theorem Abreast.fits (ha : Abreast p q g plan plan' c e u z z')
    (hf : plan.Fits D g.value? g.formula?) : plan'.Fits D g.value? g.formula? := by
  obtain ⟨b, b', hpar⟩ := ha.parallel
  have ho := Plan.ordered_of_current ha.left ha.sound
  have ho' := Plan.ordered_of_current ha.right ha.sound
  have hyields : ∀ n ∈ plan'.inner, ∀ a, g.formula? n = some a →
      ∃ v, a.expression.Yields (Serves (D := D)) g.value? v ∧ v.size = sizeUnder g.value? n := by
    intro n hn a hna
    obtain ⟨a', v, hna', hv, hvalue⟩ := ha.consistent' n hn
    obtain rfl : a = a' := Option.some.inj (hna.symm.trans hna')
    -- a node that has its value has one of the right size
    suffices hsome : ∃ w, a.expression.Yields (Serves (D := D)) g.value? w by
      obtain ⟨w, hw⟩ := hsome
      obtain rfl : w = v := Option.some.inj (hw.valueUnder_eq.symm.trans hv)
      exact ⟨w, hw, by rw [sizeUnder, hvalue]; rfl⟩
    rcases hpar.back n hn with rfl | ⟨rfl, hread⟩ | hn
    · obtain ⟨w, hw, -⟩ := hf.yields z hpar.target b hpar.left
      refine ⟨w, (ha.naming.named.yields_iff hna).mpr ?_⟩
      refine Context.yields_fill ((ha.naming.whole.yields_iff hpar.left).mp hw) fun hc => ?_
      obtain ⟨d, x, hd, hx, hux⟩ := ha.consistent' u (hpar.part (ha.naming.mem_reads hc hpar.right))
      rw [hux, ← hx, ha.naming.part.valueUnder_eq hd]
    · by_cases hmem : n ∈ plan.order
      · obtain ⟨w, hw, -⟩ := hf.yields n (hpar.mem_inner hn hmem) a hna
        exact ⟨w, hw⟩
      · obtain ⟨w, hw, -⟩ := hf.yields z hpar.target b hpar.left
        have hc := ha.naming.holes_pos hpar.left hpar.right hread fun hread =>
          hmem (ho.reads_order hpar.target hpar.left hread)
        obtain ⟨x, hx⟩ :=
          Context.yields_part hc ((ha.naming.whole.yields_iff hpar.left).mp hw)
        exact ⟨x, (ha.naming.part.yields_iff hna).mpr hx⟩
    · obtain ⟨w, hw, -⟩ := hf.yields n hn a hna
      exact ⟨w, hw⟩
  refine ⟨fun n hn => ?_, hyields⟩
  rcases Plan.mem_order_iff.mp hn with hout | hin
  · exact hf.served n (Plan.mem_order_iff.mpr (.inl ((hpar.outer n).mpr hout)))
  · obtain ⟨a, hna⟩ := ho'.computed n hin
    obtain ⟨v, hv, hsize⟩ := hyields n hin a hna
    rw [← hsize]
    exact hv.serves

variable [SteadyWidths K D]

theorem Abreast.push_exact (ha : Abreast p q g plan plan' c e u z z')
    (hf : plan.Fits D g.value? g.formula?) (hh : OnlyDerivatives g h) (hh' : OnlyDerivatives g h')
    (hs : s ∈ plan.sources) :
    ∃ r r', p.pushTangentAt s h = some r ∧ q.pushTangentAt s h' = some r' ∧
      SameAt z z' r r' := by
  have ha' := ha.congr hh'
  have hf' : plan'.Fits D h'.value? h'.formula? := by
    rw [value?_congr hh'.statics, formula?_congr hh'.statics]
    exact ha.fits hf
  obtain ⟨q', k', hpush', -⟩ :=
    pushTangentAt_exact ha'.right ha'.sound ha'.blank hf' (ha.sources_iff.mpr hs)
  exact ha.push_alike hh hh' hs (.inl (Option.isSome_iff_exists.mpr ⟨_, hpush'⟩))

/-- Where derivatives fit, reverse passes go ahead, and leave the same at the sources: they
transpose forward passes that end alike. -/
theorem Abreast.pull_exact (ha : Abreast p q g plan plan' c e u z z')
    (hf : plan.Fits D g.value? g.formula?) (hz : z ∈ p.targets) (hz' : z' ∈ q.targets)
    (hh : OnlyDerivatives g h) (hh' : OnlyDerivatives g h') :
    ∃ p₁ q₁ k k', p.pullGradientAt z h = some ((p₁, .ok ()), k) ∧
      q.pullGradientAt z' h' = some ((q₁, .ok ()), k') ∧
      ∀ s ∈ plan.sources, ∃ d d', k.differential? s = some d ∧ k'.differential? s = some d' ∧
        dims (K := K) d = (g.sizeAt z, g.sizeAt s) ∧
        dims (K := K) d' = (g.sizeAt z, g.sizeAt s) ∧
        ∀ i j, i < g.sizeAt z → j < g.sizeAt s →
          Tabulated.entry d i j = Tabulated.entry d' i j := by
  have hl := ha.congr hh
  have hr := ha.congr hh'
  have hfl : plan.Fits D h.value? h.formula? := by
    rwa [value?_congr hh.statics, formula?_congr hh.statics]
  have hfr : plan'.Fits D h'.value? h'.formula? := by
    rw [value?_congr hh'.statics, formula?_congr hh'.statics]
    exact ha.fits hf
  obtain ⟨p₁, k, hpull, -⟩ := pullGradientAt_exact hl.left hl.sound hl.blank hfl hz
  obtain ⟨q₁, k', hpull', -⟩ := pullGradientAt_exact hr.right hr.sound hr.blank hfr hz'
  refine ⟨p₁, q₁, k, k', hpull, hpull', fun s hs => ?_⟩
  -- each reverse pass transposes a forward pass from `s`, and these end alike
  obtain ⟨⟨⟨p₂, -⟩, f⟩, ⟨⟨q₂, -⟩, f'⟩, hpush, hpush', rfl, rfl, d, hd, hd'⟩ :=
    ha.push_exact hf hh hh' hs
  obtain ⟨forward, reverse, hforward, hreverse, -, hdims, hlin⟩ :=
    transposed hl.left hl.sound hl.blank hfl hs hz hpush hpull
  obtain ⟨forward', reverse', hforward', hreverse', -, hdims', hlin'⟩ :=
    transposed hr.right hr.sound hr.blank hfr (ha.sources_iff.mpr hs) hz' hpush' hpull'
  obtain rfl : forward = d := Option.some.inj (hforward.symm.trans hd)
  obtain rfl : forward' = forward := Option.some.inj (hforward'.symm.trans hd')
  have hsize : g.sizeAt z' = g.sizeAt z := by rw [sizeAt, sizeAt, ha.value]
  rw [sizeAt_congr hh.statics] at hdims
  rw [sizeAt_congr hh'.statics, hsize] at hdims'
  exact ⟨reverse, reverse', hreverse, hreverse', hdims, hdims', fun i j hi hj =>
    entry_eq_of_toLinear hdims hdims' (hlin.symm.trans hlin') hi hj⟩

end Program

end Exact

namespace Square

variable {K D : Type}

def source : NodeId := ⟨0, 0⟩

def part : NodeId := ⟨1, 0⟩

def whole : NodeId := ⟨2, 0⟩

def named : NodeId := ⟨3, 0⟩

def square : Formula K := .binary (.cwise .mul) (.read 0 source) (.read 0 source)

def context : Context K := .binary (.cwise .add) .hole .hole

def shared : Formula K := .binary (.cwise .add) (.share 1 square) (.share 1 square)

def stored : Formula K := .binary (.cwise .add) (.read 2 part) (.read 2 part)

def graph (v : Value K) : Graph K D where
  arena :=
    { slots := #[⟨0, some { content := { value := v } }⟩,
        ⟨0, some { content := { value := v, formula := some square }, children := [source] }⟩,
        ⟨0, some { content := { value := v, formula := some shared }, children := [source] }⟩,
        ⟨0, some { content := { value := v, formula := some stored }, children := [part] }⟩]
      inserted := 4 }
  nextLabel := 3

def program (n : NodeId) : Program D where
  targets := .ofList [n]
  sources := .empty

def plan : Plan where
  order := [source, whole]
  sources := .ofList [source]
  versions := [(whole, 0), (source, 0)]

variable (v : Value K)

theorem build_eq : (program whole : Program D).build (graph v : Graph K D) = .ok plan := by
  let a := (graph v : Graph K D).arena
  let s₁ : Plan.Search := { opened := [⟨whole, [source]⟩], versions := [(whole, 0)] }
  let s₂ : Plan.Search :=
    { opened := [⟨whole, []⟩]
      closed := [source]
      sources := .ofList [source]
      versions := [(source, 0), (whole, 0)] }
  let s₃ : Plan.Search := { s₂ with opened := [], closed := [whole, source] }
  have hrun : Plan.Search.run a (·.formula.isSome) .empty s₁ = .ok s₃ := by
    rw [Plan.Search.run_next (t := s₂) rfl, Plan.Search.run_next (t := s₃) rfl,
      Plan.Search.run_done rfl]
  have hall : Plan.Search.runAll a (·.formula.isSome) .empty [whole] {} = .ok s₃ :=
    Plan.Search.runAll_next (t := s₁) List.not_mem_nil rfl hrun
  exact Plan.build_of_runAll rfl hall rfl

theorem formula_cases {n : NodeId} {a : Formula K}
    (ha : (graph v : Graph K D).formula? n = some a) :
    n = part ∧ a = square ∨ n = whole ∧ a = shared ∨ n = named ∧ a = stored := by
  obtain ⟨i, γ⟩ := n
  by_cases hγ : 0 = γ
  · subst hγ
    rcases i with _ | _ | _ | _ | i
    · cases ha
    · exact .inl ⟨rfl, (Option.some.inj ha).symm⟩
    · exact .inr (.inl ⟨rfl, (Option.some.inj ha).symm⟩)
    · exact .inr (.inr ⟨rfl, (Option.some.inj ha).symm⟩)
    · simp [formula?, Arena.content?, Arena.node?, graph] at ha
  · have hnode : (graph v : Graph K D).arena.node? ⟨i, γ⟩ = none := by
      rcases i with _ | _ | _ | _ | i <;> simp [Arena.node?, graph, hγ]
    simp [formula?, Arena.content?, hnode] at ha

theorem sound : (graph v : Graph K D).Sound := by
  constructor
  · intro n a ha
    rcases formula_cases v ha with ⟨rfl, rfl⟩ | ⟨rfl, rfl⟩ | ⟨rfl, rfl⟩
    · rfl
    · rfl
    · rfl
  · refine ⟨fun l => square.expression, ?_⟩
    intro n a ha
    rcases formula_cases v ha with ⟨rfl, rfl⟩ | ⟨rfl, rfl⟩ | ⟨rfl, rfl⟩
    · exact ⟨trivial, trivial⟩
    · exact ⟨⟨rfl, trivial, trivial⟩, ⟨rfl, trivial, trivial⟩⟩
    · exact ⟨trivial, trivial⟩

theorem compared : Program.Compared (program whole : Program D) (program named) (graph v) plan
    context square.expression part whole named where
  sound := sound v
  blank := ⟨rfl, rfl⟩
  naming := ⟨⟨_, rfl, rfl⟩, ⟨_, rfl, rfl⟩, ⟨_, rfl, rfl⟩⟩
  left := ⟨rfl, rfl, nofun⟩
  right := ⟨rfl, rfl, nofun⟩
  acyclic := build_eq v

variable [Zero K] [One K] [Add K] [Mul K] [MulAdd K] [Capacity K] [NatCast K] [Calculus K]

theorem isSome_evaluate : ((program whole : Program D).evaluate (graph v)).isSome := by
  have hc := compared (D := D) v
  have hsquare : (square : Formula K).expression.valueUnder (graph v : Graph K D).value? =
      some (Twice.doubled .mul v) := Twice.eval_doubled .mul v
  have hshared : (shared : Formula K).expression.valueUnder (graph v : Graph K D).value? =
      some (Twice.doubled .add (Twice.doubled .mul v)) := by
    simpa [shared, Formula.binary, Formula.share, valueUnder, hsquare] using
      Twice.eval_doubled .add (Twice.doubled .mul v)
  have hstep : evaluateStep (graph v : Graph K D).formula? (graph v : Graph K D).value? whole =
      some (Function.update _ whole (some _)) := congrArg (Option.map _) hshared
  have hinner : plan.inner = [whole] := rfl
  rw [(hc.left.fresh.current hc.acyclic).isSome_evaluate hc.sound hc.blank, Plan.evaluateUnder,
    hinner, List.foldlM_cons, hstep]
  rfl

end Square

/-- To name a part of an expression changes nothing. A program for the variable `z` that has the
whole expression and one for the variable `z'` that reads the part by name are evaluated alike,
if one of them can be evaluated at all; a forward pass from a source then leaves the same at
`z` and at `z'`, and goes ahead for both if it does for `z'`, or if it does for `z` and there is
room for a derivative of the part. Over exact scalars, where derivatives fit, forward passes and
reverse passes go ahead for both, and the reverse passes leave the same at every source; and
matrices always fit. -/
theorem Program.named_part_alike :
    (∀ {K D : Type} [Zero K] [One K] [Add K] [Mul K] [MulAdd K] [Capacity K] [NatCast K]
      [Calculus K] [Differential K D] [SteadyWidths K D] {p q : Program D} {g : Graph K D}
      {plan : Plan} {c : Context K} {e : Expression K} {u z z' : NodeId},
      Compared p q g plan c e u z z' → ((p.evaluate g).isSome ∨ (q.evaluate g).isSome) →
      ∃ plan' p₁ q₁ g₁ v, q.build g = .ok plan' ∧ (∀ s, s ∈ plan'.sources ↔ s ∈ plan.sources) ∧
        p.evaluateBoth q g = some (((p₁, .ok ()), (q₁, .ok ())), g₁) ∧
        q.evaluateBoth p g = some (((q₁, .ok ()), (p₁, .ok ())), g₁) ∧
        g₁.value? z = some v ∧ g₁.value? z' = some v ∧
        ∀ s ∈ plan.sources, ∀ h h', OnlyDerivatives g₁ h → OnlyDerivatives g₁ h' →
          ((q₁.pushTangentAt s h').isSome ∨ (p₁.pushTangentAt s h).isSome ∧
            (Differential.zeros (K := K) (g₁.sizeAt u) (g₁.sizeAt s) : Option D).isSome) →
          ∃ r r', p₁.pushTangentAt s h = some r ∧ q₁.pushTangentAt s h' = some r' ∧
            SameAt z z' r r') ∧
    (∀ {K D : Type} [CommRing K] [Calculus K] [Differential K D] [Tabulated K D]
      [ExactDifferential K D] [SteadyWidths K D] {p q p₁ q₁ : Program D} {g g₁ : Graph K D}
      {plan : Plan} {c : Context K} {e : Expression K} {u z z' : NodeId}
      {x y : Except Error Unit}, Compared p q g plan c e u z z' →
      p.evaluateBoth q g = some (((p₁, x), (q₁, y)), g₁) →
      plan.Fits D g₁.value? g₁.formula? →
      ∀ h h', OnlyDerivatives g₁ h → OnlyDerivatives g₁ h' →
        (∀ s ∈ plan.sources, ∃ r r', p₁.pushTangentAt s h = some r ∧
          q₁.pushTangentAt s h' = some r' ∧ SameAt z z' r r') ∧
        ∃ p₂ q₂ k k', p₁.pullGradientAt z h = some ((p₂, .ok ()), k) ∧
          q₁.pullGradientAt z' h' = some ((q₂, .ok ()), k') ∧
          ∀ s ∈ plan.sources, ∃ d d', k.differential? s = some d ∧ k'.differential? s = some d' ∧
            dims (K := K) d = (g₁.sizeAt z, g₁.sizeAt s) ∧
            dims (K := K) d' = (g₁.sizeAt z, g₁.sizeAt s) ∧
            ∀ i j, i < g₁.sizeAt z → j < g₁.sizeAt s →
              Tabulated.entry d i j = Tabulated.entry d' i j) ∧
    ∀ {K : Type} [CommRing K] [Calculus K] {p q p₁ q₁ : Program (Mat K)} {g g₁ : Graph K (Mat K)}
      {plan : Plan} {c : Context K} {e : Expression K} {u z z' : NodeId}
      {x y : Except Error Unit}, Compared p q g plan c e u z z' →
      p.evaluateBoth q g = some (((p₁, x), (q₁, y)), g₁) →
      plan.Fits (Mat K) g₁.value? g₁.formula? := by
  refine ⟨?_, ?_, ?_⟩
  · intro K D _ _ _ _ _ _ _ _ _ _ p q g plan c e u z z' hc hfit
    obtain ⟨plan', p₁, q₁, g₁, v, hq, hpq, hqp, hv, -, -, ha⟩ := hc.evaluate hfit
    exact ⟨plan', p₁, q₁, g₁, v, hq, fun s => ha.sources_iff, hpq, hqp, hv, ha.value.trans hv,
      fun s hs h h' hh hh' hpush => ha.push_alike hh hh' hs hpush⟩
  · intro K D _ _ _ _ _ _ p q p₁ q₁ g g₁ plan c e u z z' x y hc hrun hf h h' hh hh'
    obtain ⟨htargets, htargets', plan', ha⟩ := hc.abreast hrun
    refine ⟨fun s hs => ha.push_exact hf hh hh' hs, ha.pull_exact hf ?_ ?_ hh hh'⟩
    · rw [htargets]
      exact List.mem_singleton_self z
    · rw [htargets']
      exact List.mem_singleton_self z'
  · intro K _ _ p q p₁ q₁ g g₁ plan c e u z z' x y hc hrun
    obtain ⟨-, -, plan', ha⟩ := hc.abreast hrun
    exact ha.consistent.fits_mat

/-- Twice the squares of two real numbers, as one shared square and as one stored square. -/
theorem Program.named_part_alike_squares :
    let g : Graph ℝ (Mat ℝ) := Square.graph (.vector #[1, 2])
    let p : Program (Mat ℝ) := Square.program Square.whole
    let q : Program (Mat ℝ) := Square.program Square.named
    ∃ p₁ q₁ g₁ v r r' p₂ q₂ k k' d d',
      p.evaluateBoth q g = some (((p₁, .ok ()), (q₁, .ok ())), g₁) ∧
      g₁.value? Square.whole = some v ∧ g₁.value? Square.named = some v ∧
      p₁.pushTangentAt Square.source g₁ = some r ∧
      q₁.pushTangentAt Square.source g₁ = some r' ∧ SameAt Square.whole Square.named r r' ∧
      p₁.pullGradientAt Square.whole g₁ = some ((p₂, .ok ()), k) ∧
      q₁.pullGradientAt Square.named g₁ = some ((q₂, .ok ()), k') ∧
      k.differential? Square.source = some d ∧ k'.differential? Square.source = some d' ∧
      ∀ i j, i < g₁.sizeAt Square.whole → j < g₁.sizeAt Square.source →
        d.entry i j = d'.entry i j := by
  intro g p q
  have hc : Compared p q g Square.plan _ _ _ _ _ := Square.compared _
  have hfit : (p.evaluate g).isSome ∨ (q.evaluate g).isSome := .inl (Square.isSome_evaluate _)
  have hs : Square.source ∈ Square.plan.sources := List.mem_singleton_self _
  obtain ⟨_, p₁, q₁, g₁, v, -, -, hrun, -, hv, hv', hpush⟩ := named_part_alike.1 hc hfit
  have hf := named_part_alike.2.2 hc hrun
  obtain ⟨hforward, p₂, q₂, k, k', hpull, hpull', hsources⟩ :=
    named_part_alike.2.1 hc hrun hf _ _ (.refl _) (.refl _)
  obtain ⟨_, _, -, hready, -⟩ := hforward _ hs
  obtain ⟨r, r', hr, hr', hsame⟩ := hpush _ hs _ _ (.refl _) (.refl _)
    (.inl (Option.isSome_iff_exists.mpr ⟨_, hready⟩))
  obtain ⟨d, d', hd, hd', -, -, hentries⟩ := hsources _ hs
  exact ⟨p₁, q₁, g₁, v, r, r', p₂, q₂, k, k', d, d', hrun, hv, hv', hr, hr', hsame, hpull, hpull',
    hd, hd', hentries⟩

end
end GradientGraph
