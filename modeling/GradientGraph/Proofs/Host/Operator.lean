import GradientGraph.Proofs.Graph.Fit
import GradientGraph.Proofs.Host.Harmless

/-!
# Operators on two operands

The shapes of operands are checked when an operator is applied to them, and not again. Where
everything fits, the operator is refused exactly if the dimensions of its operands do not
fit, and the operation that it makes otherwise follows the rule of shapes.
-/

set_option autoImplicit false

namespace GradientGraph

open GradientGraph.Graph World

namespace Graph

variable {K D : Type} {g g' : Graph K D}

theorem Relabels.value?_eq (h : g.Relabels g') : g'.value? = g.value? := by
  rw [h]
  rfl

theorem Relabels.preserves (h : g.Relabels g') : g.Preserves g' := by
  rw [h]
  exact .of_arena rfl

theorem Blank.recallsValues [Zero K] [One K] [Add K] [Mul K] [MulAdd K] [Capacity K] [NatCast K]
    [Calculus K] (h : g.Blank) (β : Label → Expression K) (e : Expression K) :
    g.RecallsValues β e := by
  intro p hp
  rw [h.1] at hp
  cases hp

end Graph

section Sides

variable {K D : Type}

def Operand.Shaped (Γ : NodeId → Option Shape) : Operand K → Shape → Prop
  | .cell n, s => Γ n = some s
  | .term a, s => a.expression.Shaped Γ s

namespace Side

def Shaped (Γ : NodeId → Option Shape) : Side K → Shape → Prop
  | .literal v, s => v.shape = s
  | .operand x, s => x.Shaped Γ s

structure Fits (H : Set (Formula K)) (g : Graph K D) (x : Side K) (c : Category) : Prop where
  formulas : x.formulas ⊆ H
  shaped : ∃ s, x.Shaped (shapes g.value?) s ∧ s.category = c

theorem fits_literal {H : Set (Formula K)} {g : Graph K D} {v : Value K} {c : Category}
    (hv : v.shape.category = c) : (literal v).Fits H g c :=
  ⟨Set.empty_subset H, v.shape, rfl, hv⟩

end Side

variable [Zero K] [One K] [Add K] [Mul K] [MulAdd K] [Capacity K] [NatCast K] [Calculus K]

def Operand.value? (g : Graph K D) : Operand K → Option (Value K)
  | .cell n => g.value? n
  | .term a => a.expression.valueUnder g.value?

def Side.value? (g : Graph K D) : Side K → Option (Value K)
  | .literal v => some v
  | .operand x => x.value? g

variable {g g' : Graph K D} {x : Side K} {s : Shape} {H : Set (Formula K)}

theorem Side.value?_congr (h : g'.value? = g.value?) (x : Side K) :
    x.value? g' = x.value? g := by
  rcases x with v | n | a
  · rfl
  · exact congrFun h n
  · exact congrArg a.expression.valueUnder h

theorem Side.Shaped.value (h : x.Shaped (shapes g.value?) s) :
    Delivers (Roomy K) (·.shape = s) (x.value? g) := by
  match x with
  | .literal v => exact .some h
  | .operand (.cell n) =>
    obtain ⟨v, hv, rfl⟩ := Option.map_eq_some_iff.mp h
    rw [value?, Operand.value?, hv]
    exact .some rfl
  | .operand (.term a) => exact Expression.Shaped.value h

structure Formulates (H : Set (Formula K)) (g : Graph K D) (x : Side K) (s : Shape)
    (r : Formula K × Graph K D) : Prop where
  orderly : r.2.Orderly ({r.1} ∪ H)
  relabels : g.Relabels r.2
  shaped : r.1.expression.Shaped (shapes g.value?) s
  value : r.1.expression.valueUnder g.value? = x.value? g

theorem Side.formula_run (hg : g.Orderly H) (hx : x.formulas ⊆ H)
    (hs : x.Shaped (shapes g.value?) s) :
    Delivers True (Formulates H g x s) (x.formula g) := by
  match x with
  | .literal v =>
    have hlabel (a : Formula K) (g' : Graph K D) : Body.literalOf v g = some (a, g') →
        g'.Orderly ({a} ∪ H) := fun h => (Body.brings_literalOf v g a g' hg h).2
    exact .some ⟨hlabel _ _ rfl, rfl, .shared (hs ▸ .literal v), rfl⟩
  | .operand (.cell n) =>
    have hlabel (a : Formula K) (g' : Graph K D) : Body.formulaOf (.cell n) g = some (a, g') →
        g'.Orderly ({a} ∪ H) := fun h => (Body.brings_formulaOf hx g a g' hg h).2
    exact .some ⟨hlabel _ _ rfl, rfl, .read _ hs, rfl⟩
  | .operand (.term a) =>
    exact .some ⟨(Body.brings_formulaOf (x := .term a) hx g a g hg rfl).2, rfl, hs, rfl⟩

end Sides

namespace Operator

variable {K D : Type}

/-- Whether the operator takes operands of the categories, and checks them unless it takes
all of these. -/
structure Takes (op : Operator K) (l r : Category) : Prop where
  category : op.kernel.category l r = some op.result
  free : op.checkedAs = none → ∀ s t, op.kernel.Joins s t

variable [Zero K] [One K] [Add K] [Mul K] [MulAdd K] [Capacity K] [NatCast K] [Calculus K]

/-- Operands whose dimensions fit make an operation, of the category that was promised, and
others are refused with the dimensions of the left operand and of the right one. -/
inductive Answers (op : Operator K) (g : Graph K D) : Except Error (Reply K) → Prop where
  | fits {a : Formula K} {u : Shape} (h : ∀ x y, op.left.value? g = some x →
      op.right.value? g = some y → op.kernel.Joins x.dims y.dims)
    (ha : a.expression.Shaped (shapes g.value?) u) (hu : u.category = op.result) :
    Answers op g (Body.plain (.inst (.operation op.result a)))
  | refused {name : String} {x y : Value K} (hname : op.checkedAs = some name)
    (hx : op.left.value? g = some x) (hy : op.right.value? g = some y)
    (h : ¬op.kernel.Joins x.dims y.dims) :
    Answers op g (.error (.shapeMismatch name x.dims y.dims))

variable {g : Graph K D} {l r : Formula K} {s t : Shape} {H : Set (Formula K)}

theorem checkShapes_run [Differential K D] {k : BinaryKernel} (name : String)
    {β : Label → Expression K} (hl : l.expression.NamedBy β) (hr : r.expression.NamedBy β)
    (hg : g.Confined ∅)
    (hs : l.expression.Shaped (shapes g.value?) s) (ht : r.expression.Shaped (shapes g.value?) t) :
    Delivers (Roomy K) (fun o => g.Relabels o.2 ∧ ∃ x y,
      l.expression.valueUnder g.value? = some x ∧ r.expression.valueUnder g.value? = some y ∧
      o.1 = if k.compatible x.shape y.shape then .ok ()
        else .error (.shapeMismatch name x.dims y.dims))
      ((Body.checkShapes k name l r : GraphM K D (Except Error Unit)) g) := by
  let compared (p : Value K × Value K) (o : Except Error Unit × Graph K D) : Prop :=
    o.1 = if k.compatible p.1.shape p.2.shape then .ok ()
      else .error (.shapeMismatch name p.1.dims p.2.dims)
  have hplain : Delivers (Roomy K) (fun p => l.expression.valueUnder g.value? = some p.1 ∧
      r.expression.valueUnder g.value? = some p.2)
      ((l.expression.valueUnder g.value?).bind fun x =>
        (r.expression.valueUnder g.value?).bind fun y => some (x, y)) :=
    hs.value.bind fun x hx _ => ht.value.bind fun y hy _ => .some ⟨hx, hy⟩
  have hrun : Option.Rel compared
      ((l.expression.valueUnder g.value?).bind fun x =>
        (r.expression.valueUnder g.value?).bind fun y => some (x, y))
      ((Body.checkShapes k name l r : GraphM K D (Except Error Unit)) g) := by
    refine Expression.operands_run (k := k) ⟨hl, hr⟩ (hg.blank.recallsValues β _)
      fun x y g' _ => ?_
    rw [run_bind, run_modify, Option.bind_some, run_bind, run_modify, Option.bind_some]
    by_cases hk : k.compatible x.shape y.shape
    · rw [if_pos hk]
      exact .some (if_pos hk).symm
    · rw [if_neg hk]
      exact .some (if_neg hk).symm
  refine (hplain.follow hrun).imp fun o ho h => ?_
  obtain ⟨⟨x, y⟩, ⟨hx, hy⟩, ho'⟩ := h
  exact ⟨(Body.quiet_checkShapes k name l r g o.1 o.2 hg ho).1, x, y, hx, hy, ho'⟩

theorem applyBinary_run [Differential K D] {op : Operator K} {g' : Graph K D}
    {β : Label → Expression K} (hop : op.Takes s.category t.category) (hg : g.Relabels g')
    (hc : g.Confined ∅) (hl : l.expression.NamedBy β) (hr : r.expression.NamedBy β)
    (hs : l.expression.Shaped (shapes g.value?) s) (ht : r.expression.Shaped (shapes g.value?) t)
    (hx : l.expression.valueUnder g.value? = op.left.value? g)
    (hy : r.expression.valueUnder g.value? = op.right.value? g) :
    Delivers (Roomy K) (fun o => g.Relabels o.2 ∧ op.Answers g o.1)
      (Body.applyBinary op.kernel op.result op.checkedAs l r g') := by
  have hshape {x : Value K} (h : op.left.value? g = some x) : x.shape = s :=
    hs.value.sound x (hx.trans h)
  have hshape' {y : Value K} (h : op.right.value? g = some y) : y.shape = t :=
    ht.value.sound y (hy.trans h)
  have hjoins {x y : Value K} (hx : op.left.value? g = some x) (hy : op.right.value? g = some y) :
      op.kernel.Joins x.dims y.dims ↔ op.kernel.compatible s t := by
    rw [BinaryKernel.compatible_iff_joins hop.category, ← hshape hx, ← hshape' hy]
    rfl
  have hmade (hk : op.kernel.compatible s t) (label : Label) : op.Answers g
      (Body.plain (.inst (.operation op.result (.share label (.binary op.kernel l r))))) := by
    obtain ⟨u, hu⟩ := BinaryKernel.compatible_iff.mp hk
    exact .fits (fun x y hx hy => (hjoins hx hy).mpr hk) (.shared (.binary hs ht hu))
      (hu.category hop.category)
  unfold Body.applyBinary
  cases hname : op.checkedAs with
  | none =>
    have hk := (BinaryKernel.compatible_iff_joins hop.category).mpr (hop.free hname _ _)
    exact .some ⟨hg.trans rfl, hmade hk _⟩
  | some name =>
    rw [← hg.value?_eq] at hs ht
    refine (checkShapes_run name hl hr (hg.confined hc) hs ht).bind ?_
    rintro ⟨fits, g''⟩ - ⟨hg', x, y, hxv, hyv, rfl : fits = _⟩
    rw [hg.value?_eq] at hxv hyv
    replace hx := hx.symm.trans hxv
    replace hy := hy.symm.trans hyv
    rw [hshape hx, hshape' hy]
    by_cases hk : op.kernel.compatible s t
    · simp only [if_pos hk]
      exact .some ⟨(hg.trans hg').trans rfl, hmade hk _⟩
    · simp only [if_neg hk]
      exact .some ⟨hg.trans hg', .refused hname hx hy fun h => hk ((hjoins hx hy).mp h)⟩

/-- Where both operands follow the rule of shapes an operator answers as it should. -/
theorem answers_run [Differential K D] {op : Operator K} {c d : Category} (hop : op.Takes c d)
    (hl : op.left.Fits H g c) (hr : op.right.Fits H g d) (hg : g.Orderly H)
    (hc : g.Confined ∅) :
    Delivers (Roomy K) (fun o => g.Relabels o.2 ∧ op.Answers g o.1) (op.run g) := by
  obtain ⟨hl, s, hs, rfl⟩ := hl
  obtain ⟨hr, t, ht, rfl⟩ := hr
  refine ((Side.formula_run hg hl hs).of_room fun _ => trivial).bind ?_
  rintro ⟨l, g₁⟩ - ⟨hg₁, hrelabels₁, hls, hlv⟩
  rw [← hrelabels₁.value?_eq] at ht
  refine ((Side.formula_run hg₁ (hr.trans Set.subset_union_right) ht).of_room
    fun _ => trivial).bind ?_
  rintro ⟨r, g₂⟩ - ⟨hg₂, hrelabels₂, hrs, hrv⟩
  obtain ⟨β, hβ⟩ := hg₂.named
  have hl : l.expression.NamedBy β := (hβ l (.inl (.inr (.inl rfl)))).named
  have hr : r.expression.NamedBy β := (hβ r (.inl (.inl rfl))).named
  rw [hrelabels₁.value?_eq, op.right.value?_congr hrelabels₁.value?_eq] at hrv
  rw [hrelabels₁.value?_eq] at hrs
  exact applyBinary_run hop (hrelabels₁.trans hrelabels₂) hc hl hr hls hrs hlv hrv

end Operator

end GradientGraph
