import GradientGraph.Graph.Assign
import GradientGraph.Graph.Owners
import GradientGraph.Proofs.Node.Age
import GradientGraph.Proofs.Program.Run

/-!
# What operations keep

Most operations give no variable a new formula. Whatever holds of the formulas of a
graph then goes on to hold, and the arena has only aged.
-/

set_option autoImplicit false

namespace GradientGraph

theorem Expression.nodup_firsts {K : Type} (e : Expression K) : e.footprint.firsts.Nodup := by
  induction e with
  | literal => exact List.nodup_nil
  | read _ n => exact List.nodup_cons.mpr ⟨List.not_mem_nil, List.nodup_nil⟩
  | unary _ _ ih => exact ih
  | binary _ l r ihl ihr =>
    refine List.nodup_append.mpr ⟨ihl, ihr.filter _, ?_⟩
    intro n hn m hm hnm
    subst hnm
    simp [hn] at hm
  | shared _ _ ih => exact ih

theorem Formula.nodup_children {K : Type} (a : Formula K) : a.children.Nodup := by
  rw [children, a.footprint_eq]
  exact a.expression.nodup_firsts

namespace Graph

variable {K D : Type}

def isComputed (c : Cell K D) : Bool := c.formula.isSome

/-- Whether the second graph can be what insertions and assignments made of the
first. -/
structure Ages (g g' : Graph K D) : Prop where
  inserted : g.arena.inserted ≤ g'.arena.inserted
  assigned : g.assigned ≤ g'.assigned
  later : g.arena.Later isComputed (g'.arena.inserted - g.arena.inserted)
    (g'.assigned - g.assigned) g'.arena

namespace Ages

variable {g g' g'' : Graph K D}

theorem of_arena (h : g'.arena = g.arena) (ha : g.assigned ≤ g'.assigned) : g.Ages g' where
  inserted := Nat.le_of_eq (by rw [h])
  assigned := ha
  later := by
    rw [h]
    exact Arena.Later.refl _ _ g.arena

theorem refl (g : Graph K D) : g.Ages g := of_arena rfl (Nat.le_refl _)

theorem trans (h : g.Ages g') (h' : g'.Ages g'') : g.Ages g'' where
  inserted := Nat.le_trans h.inserted h'.inserted
  assigned := Nat.le_trans h.assigned h'.assigned
  later := by
    have hi := h.inserted
    have hi' := h'.inserted
    have ha := h.assigned
    have ha' := h'.assigned
    exact (h.later.trans h'.later).mono (by omega) (by omega)

end Ages

structure Keeps (g g' : Graph K D) : Prop where
  ages : g.Ages g'
  formulas : ∀ n x, g'.arena.node? n = some x → ∀ a, x.content.formula = some a →
    ∃ y, g.arena.node? n = some y ∧ y.content.formula = some a ∧ y.children = x.children
  label : g.nextLabel ≤ g'.nextLabel

namespace Keeps

variable {g g' g'' : Graph K D}

theorem of_arena (h : g'.arena = g.arena) (ha : g.assigned ≤ g'.assigned)
    (hl : g.nextLabel ≤ g'.nextLabel) : g.Keeps g' where
  ages := .of_arena h ha
  formulas := by
    intro n x hx a hxa
    exact ⟨x, by rw [← h, hx], hxa, rfl⟩
  label := hl

theorem refl (g : Graph K D) : g.Keeps g := .of_arena rfl (Nat.le_refl _) (Nat.le_refl _)

theorem trans (h : g.Keeps g') (h' : g'.Keeps g'') : g.Keeps g'' where
  ages := h.ages.trans h'.ages
  formulas := by
    intro n x hx a ha
    obtain ⟨y, hy, hya, hyx⟩ := h'.formulas n x hx a ha
    obtain ⟨z, hz, hza, hzy⟩ := h.formulas n y hy a hya
    exact ⟨z, hz, hza, hzy.trans hyx⟩
  label := Nat.le_trans h.label h'.label

theorem updateCell (g : Graph K D) (n : NodeId) {f : Cell K D → Cell K D}
    (hf : ∀ x, g.arena.node? n = some x → (f x.content).formula = x.content.formula) :
    g.Keeps (g.updateCell n f) where
  ages := {
    inserted := by simp [Graph.updateCell]
    assigned := Nat.le_refl _
    later := by
      apply (Arena.later_modify (m := 0) _).mono (Nat.zero_le _) (Nat.zero_le _)
      intro x hx
      refine ⟨0, Nat.le_refl _, (UInt64.add_zero _).symm, fun _ => ⟨rfl, ?_⟩⟩
      exact congrArg Option.isSome (hf x hx).symm }
  formulas := by
    intro m x hx a ha
    rw [Graph.updateCell, Arena.node?_modify] at hx
    split at hx
    · rename_i hm
      subst hm
      obtain ⟨y, hy, rfl⟩ := Option.map_eq_some_iff.mp hx
      exact ⟨y, hy, (hf y hy).symm.trans ha, rfl⟩
    · exact ⟨x, hx, ha, rfl⟩
  label := Nat.le_refl _

theorem setValue (g : Graph K D) (n : NodeId) (v : Value K) : g.Keeps (g.setValue n v) :=
  .updateCell g n fun _ _ => rfl

theorem setDerivative (g : Graph K D) (n : NodeId) (d : Option (Stamped D)) :
    g.Keeps (g.setDerivative n d) := .updateCell g n fun _ _ => rfl

theorem forget (g : Graph K D) (a : Formula K) : g.Keeps (g.forget a) :=
  .of_arena rfl (Nat.le_refl _) (Nat.le_refl _)

theorem countAssignment (g : Graph K D) : g.Keeps g.countAssignment :=
  .of_arena rfl (Nat.le_succ _) (Nat.le_refl _)

theorem removeNode (g : Graph K D) (n : NodeId) : g.Keeps (g.removeNode n) where
  ages := {
    inserted := by simp [Graph.removeNode]
    assigned := Nat.le_refl _
    later := Arena.later_remove g.arena n }
  formulas := by
    intro m x hx a ha
    exact ⟨x, Arena.node?_of_remove hx, ha, rfl⟩
  label := Nat.le_refl _

theorem loseNode (g : Graph K D) : g.Keeps g.loseNode :=
  .of_arena rfl (Nat.le_refl _) (Nat.le_refl _)

theorem release (held pending : List NodeId) (g : Graph K D) :
    g.Keeps (g.release held pending) :=
  release_induction (.refl g) (fun g' n h _ _ => h.trans (removeNode g' n))
    (fun g' h => h.trans (loseNode g')) pending

theorem newVariable (g : Graph K D) (v : Value K) :
    g.Keeps { g with arena := (g.arena.insert { value := v }).2 } where
  ages := {
    inserted := by simp
    assigned := Nat.le_refl _
    later := by
      have h : g.arena.Later isComputed 1 0 _ :=
        Arena.later_insert g.arena { value := v } fun x => x
      rw [Arena.modify_id fun _ => rfl] at h
      simpa using h }
  formulas := by
    intro n x hx a ha
    obtain rfl | hx := Arena.node?_of_insert hx
    · cases ha
    · exact ⟨x, hx, ha, rfl⟩
  label := Nat.le_refl _

theorem dropFormula (g : Graph K D) (n : NodeId) {f : Cell K D → Cell K D}
    (hf : ∀ c, (f c).formula = none) :
    g.Keeps { g.countAssignment with arena := (g.updateCell n f).arena.resetChildren n } where
  ages := {
    inserted := by simp [Graph.updateCell, Arena.resetChildren]
    assigned := Nat.le_succ _
    later := by
      rw [Graph.updateCell, Arena.resetChildren, Arena.modify_modify]
      apply (Arena.later_modify (m := 1) _).mono (Nat.zero_le _)
      · simp [Graph.countAssignment]
      · intro x _
        exact ⟨1, Nat.le_refl _, rfl, fun h => absurd h Nat.one_ne_zero⟩ }
  formulas := by
    intro m x hx a ha
    simp only [Graph.updateCell, Arena.resetChildren, Arena.modify_modify] at hx
    rw [Arena.node?_modify] at hx
    split at hx
    · obtain ⟨y, -, rfl⟩ := Option.map_eq_some_iff.mp hx
      rw [hf] at ha
      cases ha
    · exact ⟨x, hx, ha, rfl⟩
  label := Nat.le_refl _

end Keeps

end Graph

end GradientGraph
