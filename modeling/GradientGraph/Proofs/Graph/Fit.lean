import GradientGraph.Proofs.Graph.Growth
import GradientGraph.Proofs.Graph.Shape

/-!
# Operations that keep shapes

A variable that is made has the shape of its value, and one that is assigned a value of
its own shape keeps it. The formulas go on to fit if the new ones do: then a new variable
can be computed, or an old one anew, from whatever follows the rule of shapes.
-/

set_option autoImplicit false

namespace GradientGraph

namespace Graph

variable {K D : Type}

structure Preserves (g g' : Graph K D) : Prop where
  kept : ∀ n s, shapes g.value? n = some s → shapes g'.value? n = some s
  formulas : ∀ n a, g'.formula? n = some a → g.formula? n = some a ∨
    ∃ s, shapes g'.value? n = some s ∧
      a.expression.Shaped (shapes g'.value?) s

variable {g g' g'' : Graph K D} {n : NodeId} {a : Formula K} {s : Shape}

theorem Preserves.of_same (hv : shapes g'.value? = shapes g.value?)
    (hf : g'.formula? = g.formula?) : g.Preserves g' where
  kept := by
    rw [hv]
    exact fun n s h => h
  formulas := by
    rw [hf]
    exact fun n a h => .inl h

theorem Preserves.of_arena (h : g'.arena = g.arena) : g.Preserves g' := by
  refine .of_same (congrArg _ ?_) ?_
  · funext n
    rw [value?, value?, h]
  · funext n
    rw [formula?, formula?, h]

theorem Preserves.refl (g : Graph K D) : g.Preserves g := .of_arena rfl

theorem OnlyDerivatives.preserves (h : OnlyDerivatives g g') : g.Preserves g' :=
  .of_same (congrArg _ (value?_congr h.statics)) (formula?_congr h.statics)

theorem Preserves.trans (h : g.Preserves g') (h' : g'.Preserves g'') : g.Preserves g'' where
  kept n s hs := h'.kept n s (h.kept n s hs)
  formulas := by
    intro n a ha
    obtain ha | ha := h'.formulas n a ha
    · obtain ha | ⟨s, hs, hshaped⟩ := h.formulas n a ha
      · exact .inl ha
      · exact .inr ⟨s, h'.kept n s hs, hshaped.congr fun m _ => h'.kept m⟩
    · exact .inr ha

theorem Preserves.fitted (h : g.Preserves g')
    (hg : Fitted (shapes g.value?) g.formula?) :
    Fitted (shapes g'.value?) g'.formula? := by
  intro n a ha
  obtain ha | ha := h.formulas n a ha
  · obtain ⟨s, hs, hshaped⟩ := hg n a ha
    exact ⟨s, h.kept n s hs, hshaped.congr fun m _ => h.kept m⟩
  · exact ha

theorem shapes_of_node {x : Node (Cell K D)} (h : g.arena.node? n = some x) :
    shapes g.value? n = some x.content.value.shape := by
  simp [shapes, value?, Arena.content?, h]

theorem node?_of_shapes (h : shapes g.value? n = some s) :
    ∃ x, g.arena.node? n = some x ∧ x.content.value.shape = s := by
  obtain ⟨v, hv, rfl⟩ := Option.map_eq_some_iff.mp h
  obtain ⟨c, hc, rfl⟩ := Option.map_eq_some_iff.mp hv
  obtain ⟨x, hx, rfl⟩ := Option.map_eq_some_iff.mp hc
  exact ⟨x, hx, rfl⟩

theorem Preserves.modify {f : Node (Cell K D) → Node (Cell K D)}
    (harena : g'.arena = g.arena.modify n f) (hn : shapes g.value? n = some s)
    (hvalue : ∀ x, (f x).content.value.shape = s)
    (hformula : ∀ x a, (f x).content.formula = some a →
      a.expression.Shaped (shapes g.value?) s) : g.Preserves g' := by
  obtain ⟨x, hx, -⟩ := node?_of_shapes hn
  have hnode (m : NodeId) : g'.arena.node? m =
      if m = n then some (f x) else g.arena.node? m := by
    rw [harena, Arena.node?_modify]
    split
    · rename_i hm
      rw [hm, hx, Option.map_some]
    · rfl
  have hshapes : shapes g'.value? = shapes g.value? := by
    funext m
    by_cases hm : m = n
    · subst hm
      rw [hn, shapes_of_node ((hnode m).trans (if_pos rfl)), hvalue]
    · simp only [shapes, value?, Arena.content?, hnode, if_neg hm]
  refine ⟨by rw [hshapes]; exact fun m t h => h, fun m b hb => ?_⟩
  by_cases hm : m = n
  · subst hm
    rw [formula?_of_node ((hnode m).trans (if_pos rfl))] at hb
    exact .inr ⟨s, hshapes ▸ hn, hshapes ▸ hformula x b hb⟩
  · exact .inl (by simpa [formula?, Arena.content?, hnode, hm] using hb)

theorem Preserves.insert (hg : g.arena.Packed) {c : Cell K D}
    {f : Node (Cell K D) → Node (Cell K D)}
    (harena : g'.arena = (g.arena.insert c).2.modify (g.arena.insert c).1 f)
    (hvalue : (f { content := c }).content.value.shape = s)
    (hformula : ∀ a, (f { content := c }).content.formula = some a →
      a.expression.Shaped (shapes g.value?) s) :
    g.Preserves g' ∧ shapes g'.value? (g.arena.insert c).1 = some s := by
  have hnode (m : NodeId) : g'.arena.node? m =
      if m = (g.arena.insert c).1 then some (f { content := c }) else g.arena.node? m := by
    rw [harena, Arena.node?_modify, hg.node?_insert]
    split <;> rfl
  have hnew : shapes g'.value? (g.arena.insert c).1 = some s := by
    rw [shapes_of_node ((hnode _).trans (if_pos rfl)), hvalue]
  have hgrows : ∀ m t, shapes g.value? m = some t →
      shapes g'.value? m = some t := by
    intro m t h
    obtain ⟨x, hx, rfl⟩ := node?_of_shapes h
    have hm : m ≠ (g.arena.insert c).1 := by
      rintro rfl
      rw [hg.fresh] at hx
      cases hx
    exact shapes_of_node ((hnode m).trans ((if_neg hm).trans hx))
  refine ⟨⟨hgrows, fun m b hb => ?_⟩, hnew⟩
  by_cases hm : m = (g.arena.insert c).1
  · subst hm
    rw [formula?_of_node ((hnode _).trans (if_pos rfl))] at hb
    exact .inr ⟨s, hnew, (hformula b hb).congr fun m _ => hgrows m⟩
  · exact .inl (by simpa [formula?, Arena.content?, hnode, hm] using hb)

theorem Sheds.shapes_eq (h : g.Sheds g') (hn : g'.arena.contains n) :
    shapes g'.value? n = shapes g.value? n := by
  obtain ⟨x, hx⟩ := Arena.contains_iff.mp hn
  rw [shapes_of_node hx, shapes_of_node (h.nodes n x hx)]

theorem Sheds.fitted {S : Set Nat} {N : Set NodeId} (h : g.Sheds g') (hg' : g'.Whole S N)
    (hg : Fitted (shapes g.value?) g.formula?) :
    Fitted (shapes g'.value?) g'.formula? := by
  intro n a ha
  obtain ⟨x, hx, hxa⟩ := node?_of_formula ha
  obtain ⟨s, hs, hshaped⟩ := hg n a ((formula?_of_node (h.nodes n x hx)).trans hxa)
  refine ⟨s, ?_, hshaped.congr fun c hc t ht => ?_⟩
  · rw [h.shapes_eq (Arena.contains_iff.mpr ⟨x, hx⟩), hs]
  · rw [h.shapes_eq (hg'.closed n a ha c hc), ht]

theorem preserves_newVariable (hg : g.arena.Packed) {v : Value K}
    (h : (newVariable v : GraphM K D NodeId) g = some (n, g')) :
    g.Preserves g' ∧ shapes g'.value? n = some v.shape := by
  cases h
  exact Preserves.insert hg (c := { value := v }) (Arena.modify_id fun _ => rfl).symm rfl
    fun a ha => by cases ha

theorem preserves_assignLiteral {v : Value K} {displaced : List NodeId}
    (hn : shapes g.value? n = some v.shape)
    (h : (assignLiteral n v : GraphM K D (List NodeId)) g = some (displaced, g')) :
    g.Preserves g' := by
  have h := Option.some.inj ((assignLiteral_run n v g).symm.trans h)
  cases hcomputed : g.formula? n with
  | none =>
    simp only [hcomputed] at h
    cases h
    exact .modify rfl hn (fun _ => rfl) fun _ a ha => by cases ha
  | some a =>
    simp only [hcomputed] at h
    cases h
    exact .modify (Arena.modify_modify ..) hn (fun _ => rfl) fun _ a ha => by cases ha

section Formulas

variable [Zero K] [One K] [Add K] [Mul K] [MulAdd K] [Capacity K] [NatCast K] [Calculus K]
  {β : Label → Expression K}

theorem delivers_newComputed (hβ : a.expression.NamedBy β) (hb : g.Blank)
    (hp : g.arena.Packed) (hs : a.expression.Shaped (shapes g.value?) s) :
    Delivers (Roomy K) (fun r => g.Preserves r.2 ∧ shapes r.2.value? r.1 = some s)
      ((newComputed a : GraphM K D NodeId) g) := by
  obtain ⟨vs, hrun⟩ := finds_plain hβ (hb.forgot a)
  cases hv : a.expression.valueUnder g.value? with
  | none =>
    rw [hv, Option.map_none] at hrun
    rw [newComputed, run_bind, hrun]
    refine .none fun hroom => ?_
    obtain ⟨v, hv'⟩ := hs.value.total hroom
    cases hv.symm.trans hv'
  | some v =>
    rw [hv, Option.map_some] at hrun
    rw [newComputed_run hrun]
    refine .some (Preserves.insert hp rfl (hs.value.sound v hv) fun b hb => ?_)
    cases hb
    exact hs

theorem delivers_assignFormula (hβ : a.expression.NamedBy β) (hb : g.Blank)
    (hs : a.expression.Shaped (shapes g.value?) s)
    (hn : ∀ v, a.expression.valueUnder g.value? = some v →
      shapes g.value? n = some v.shape) :
    Delivers (Roomy K) (fun r => g.Preserves r.2)
      ((assignFormula n a : GraphM K D (List NodeId)) g) := by
  obtain ⟨vs, hrun⟩ := finds_plain hβ (hb.forgot a)
  rw [assignFormula, run_bind, hrun, Option.bind_map]
  refine hs.value.bind fun v hv hvs => ?_
  obtain ⟨displaced, hattach⟩ := attach_run n a v (g.remembering vs).countAssignment
  rw [Function.comp_apply, run_bind, run_modify, Option.bind_some, hattach]
  refine .some (Preserves.modify rfl (hn v hv) (fun _ => rfl) fun _ b hb => ?_)
  cases hb
  exact hvs ▸ hs

end Formulas

end Graph

end GradientGraph
