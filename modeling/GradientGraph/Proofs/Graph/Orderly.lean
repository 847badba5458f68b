import GradientGraph.Proofs.Graph.Silent
import Mathlib.Data.Set.Basic

/-!
# Orderly graphs

Edges are those of the formulas, and a label is given to one part only. The formulas
in question are those of the variables and those that are held outside the graph. A
computation that makes formulas is described by the formulas that it brings.
-/

set_option autoImplicit false

namespace GradientGraph

variable {K D : Type}

theorem Expression.NamedBy.congr {β β' : Label → Expression K} {e : Expression K}
    (h : e.NamedBy β) (heq : ∀ l, e.HasLabel l → β' l = β l) : e.NamedBy β' := by
  induction e with
  | literal => trivial
  | read => trivial
  | unary k a ih => exact ih h heq
  | binary k l r ihl ihr =>
    exact ⟨ihl h.1 fun i hi => heq i (hasLabel_left hi),
      ihr h.2 fun i hi => heq i (hasLabel_right hi)⟩
  | shared label e ih =>
    refine ⟨?_, ih h.2 fun i hi => heq i (hasLabel_body hi)⟩
    rw [heq label (hasLabel_shared.mpr (.inr rfl))]
    exact h.1

/-- Whether the formula's parts are those that the labels name, all of them given out
before `next`. -/
structure Formula.Known (β : Label → Expression K) (next : Label) (a : Formula K) : Prop where
  named : a.expression.NamedBy β
  given : ∀ l, a.expression.HasLabel l → l < next

def Formula.FormedOf (H : Set (Formula K)) (a : Formula K) : Prop :=
  ∀ β next, (∀ b ∈ H, b.Known β next) → a.Known β next

namespace Formula

variable {H : Set (Formula K)} {a l r : Formula K} {β : Label → Expression K} {m next : Label}

theorem formedOf_mem (ha : a ∈ H) : a.FormedOf H := fun _ _ h => h a ha

theorem formedOf_literal (v : Value K) : (literal v).FormedOf H := by
  intro β next _
  exact ⟨trivial, by simp [literal, Expression.HasLabel, Expression.footprint, Footprint.empty]⟩

theorem formedOf_read (label : Label) (n : NodeId) : (read (K := K) label n).FormedOf H := by
  intro β next _
  exact ⟨trivial, by simp [read, Expression.HasLabel, Expression.footprint, Footprint.ofNode]⟩

theorem formedOf_unary (k : UnaryKernel) (ha : a.FormedOf H) : (unary k a).FormedOf H := by
  intro β next h
  exact ⟨(ha β next h).named, (ha β next h).given⟩

theorem formedOf_binary (k : BinaryKernel) (hl : l.FormedOf H) (hr : r.FormedOf H) :
    (binary k l r).FormedOf H := by
  intro β next h
  refine ⟨⟨(hl β next h).named, (hr β next h).named⟩, ?_⟩
  intro i hi
  obtain hi | hi := Expression.hasLabel_binary.mp hi
  · exact (hl β next h).given i hi
  · exact (hr β next h).given i hi

theorem Known.later (h : a.Known β m) (hm : m ≤ next) : a.Known β next :=
  ⟨h.named, fun l hl => Nat.lt_of_lt_of_le (h.given l hl) hm⟩

theorem Known.update (h : a.Known β next) (e : Expression K) :
    a.Known (Function.update β next e) (next + 1) := by
  refine ⟨h.named.congr fun l hl => ?_, fun l hl => Nat.lt_succ_of_lt (h.given l hl)⟩
  exact Function.update_of_ne (Nat.ne_of_lt (h.given l hl)) e β

theorem Known.share (h : a.Known β next) :
    (a.share next).Known (Function.update β next a.expression) (next + 1) := by
  refine ⟨⟨Function.update_self .., (h.update _).named⟩, ?_⟩
  intro l hl
  obtain hl | rfl := Expression.hasLabel_shared.mp hl
  · exact (h.update a.expression).given l hl
  · exact Nat.lt_succ_self _

end Formula

def Node.attach (a : Formula K) (v : Value K) (x : Node (Cell K D)) : Node (Cell K D) where
  content := { x.content with value := v, formula := some a }
  children := a.children
  version := x.version + 1

namespace Graph

def Uses (g : Graph K D) (a : Formula K) : Prop :=
  ∃ n x, g.arena.node? n = some x ∧ x.content.formula = some a

/-- What holds whenever the formulas `H` are held outside the graph. -/
structure Orderly (H : Set (Formula K)) (g : Graph K D) : Prop where
  linked : ∀ n x, g.arena.node? n = some x → ∀ a, x.content.formula = some a →
    x.children = a.children
  named : ∃ β, ∀ a, a ∈ H ∨ g.Uses a → a.Known β g.nextLabel

theorem orderly_empty : ({} : Graph K D).Orderly ∅ where
  linked := by
    intro n x hx
    cases hx
  named := by
    refine ⟨fun _ => .read 0 ⟨0, 0⟩, ?_⟩
    rintro a (ha | ⟨n, x, hx, -⟩)
    · cases ha
    · cases hx

namespace Orderly

variable {H H' : Set (Formula K)} {g g' : Graph K D} {a : Formula K}

theorem sound (h : g.Orderly H) : g.Sound where
  linked := by
    intro n a ha
    obtain ⟨c, hc, hca⟩ := Option.bind_eq_some_iff.mp ha
    obtain ⟨x, hx, rfl⟩ := Option.map_eq_some_iff.mp hc
    rw [Arena.children?, hx, Option.map_some, h.linked n x hx a hca]
  named := by
    obtain ⟨β, hβ⟩ := h.named
    refine ⟨β, ?_⟩
    intro n a ha
    obtain ⟨c, hc, hca⟩ := Option.bind_eq_some_iff.mp ha
    obtain ⟨x, hx, rfl⟩ := Option.map_eq_some_iff.mp hc
    exact (hβ a (.inr ⟨n, x, hx, hca⟩)).named

theorem mono (h : g.Orderly H) (hH : H' ⊆ H) : g.Orderly H' where
  linked := h.linked
  named := by
    obtain ⟨β, hβ⟩ := h.named
    exact ⟨β, fun a ha => hβ a (ha.imp_left fun hmem => hH hmem)⟩

theorem keeps (h : g.Orderly H) (hg : g.Keeps g') : g'.Orderly H where
  linked := by
    intro n x hx a ha
    obtain ⟨y, hy, hya, hyx⟩ := hg.formulas n x hx a ha
    rw [← hyx, h.linked n y hy a hya]
  named := by
    obtain ⟨β, hβ⟩ := h.named
    refine ⟨β, ?_⟩
    rintro a (ha | ⟨n, x, hx, ha⟩)
    · exact (hβ a (.inl ha)).later hg.label
    · obtain ⟨y, hy, hya, -⟩ := hg.formulas n x hx a ha
      exact (hβ a (.inr ⟨n, y, hy, hya⟩)).later hg.label

theorem insert (h : g.Orderly H) (ha : a.FormedOf H) : g.Orderly ({a} ∪ H) where
  linked := h.linked
  named := by
    obtain ⟨β, hβ⟩ := h.named
    refine ⟨β, ?_⟩
    rintro b ((rfl | hb) | hb)
    · exact ha β g.nextLabel fun c hc => hβ c (.inl hc)
    · exact hβ b (.inl hb)
    · exact hβ b (.inr hb)

theorem uses (h : g.Orderly H) {n : NodeId} (ha : g.formula? n = some a) :
    g.Orderly ({a} ∪ H) where
  linked := h.linked
  named := by
    obtain ⟨c, hc, hca⟩ := Option.bind_eq_some_iff.mp ha
    obtain ⟨x, hx, rfl⟩ := Option.map_eq_some_iff.mp hc
    obtain ⟨β, hβ⟩ := h.named
    refine ⟨β, ?_⟩
    rintro b ((rfl | hb) | hb)
    · exact hβ b (.inr ⟨n, x, hx, hca⟩)
    · exact hβ b (.inl hb)
    · exact hβ b (.inr hb)

theorem share (h : g.Orderly H) (ha : a.FormedOf H) :
    ({ g with nextLabel := g.nextLabel + 1 } : Graph K D).Orderly
      ({a.share g.nextLabel} ∪ H) where
  linked := h.linked
  named := by
    obtain ⟨β, hβ⟩ := h.named
    refine ⟨Function.update β g.nextLabel a.expression, ?_⟩
    rintro b ((rfl | hb) | hb)
    · exact (ha β g.nextLabel fun c hc => hβ c (.inl hc)).share
    · exact (hβ b (.inl hb)).update _
    · exact (hβ b (.inr hb)).update _

end Orderly

theorem attached_arena (a : Formula K) (v : Value K) (n : NodeId) (b : Arena (Cell K D)) :
    ((a.children.foldl (fun b c => b.addChild n c) (b.resetChildren n)).modify n fun x =>
      { x with content := { x.content with value := v, formula := some a } }) =
      b.modify n (Node.attach a v) := by
  rw [Arena.foldl_addChild, Arena.resetChildren, Arena.modify_modify, Arena.modify_modify]
  congr 1
  funext x
  rw [foldl_distinct _ _ (by simpa using a.nodup_children)]
  rfl

theorem attach_run (n : NodeId) (a : Formula K) (v : Value K) (g : Graph K D) :
    ∃ displaced, attach n a v g = some (displaced, { g.forget a with
      arena := g.arena.modify n (Node.attach a v) }) := by
  rw [attach, run_bind, run_modify, Option.bind_some, run_bind, run_editArena, Option.bind_some,
    run_bind, addChildren_run, ← attached_arena]
  exact ⟨_, rfl⟩

theorem children?_attach {n : NodeId} {a : Formula K} {v : Value K} {g g' : Graph K D}
    {displaced : List NodeId} (hn : g.arena.contains n)
    (h : (attach n a v : GraphM K D (List NodeId)) g = some (displaced, g')) :
    g'.arena.children? n = some a.children := by
  obtain ⟨_, hrun⟩ := attach_run n a v g
  obtain ⟨-, rfl⟩ := Prod.mk.inj (Option.some.inj (h.symm.trans hrun))
  obtain ⟨x, hx⟩ := Arena.contains_iff.mp hn
  rw [Arena.children?, Arena.node?_modify, if_pos rfl, hx]
  rfl

theorem Orderly.attach {H : Set (Formula K)} {g : Graph K D} (h : g.Orderly H) {a : Formula K}
    (ha : a.FormedOf H) (n : NodeId) (v : Value K) :
    ({ g.forget a with arena := g.arena.modify n (Node.attach a v) } : Graph K D).Orderly H where
  linked := by
    intro m x hx b hb
    rw [Arena.node?_modify] at hx
    split at hx
    · obtain ⟨y, -, rfl⟩ := Option.map_eq_some_iff.mp hx
      cases hb
      rfl
    · exact h.linked m x hx b hb
  named := by
    obtain ⟨β, hβ⟩ := (h.insert ha).named
    refine ⟨β, ?_⟩
    rintro b (hb | ⟨m, x, hx, hb⟩)
    · exact hβ b (.inl (.inr hb))
    · rw [Arena.node?_modify] at hx
      split at hx
      · obtain ⟨y, -, rfl⟩ := Option.map_eq_some_iff.mp hx
        cases hb
        exact hβ a (.inl (.inl rfl))
      · exact hβ b (.inr ⟨m, x, hx, hb⟩)

theorem ages_attach {g : Graph K D} (n : NodeId) (a : Formula K) (v : Value K) :
    g.Ages { g.countAssignment.forget a with arena := g.arena.modify n (Node.attach a v) } where
  inserted := by simp
  assigned := Nat.le_succ _
  later := by
    refine (Arena.later_modify (m := 1) ?_).mono (Nat.zero_le _) (Nat.le_of_eq ?_)
    · intro x _
      exact ⟨1, Nat.le_refl _, rfl, fun h => absurd h Nat.one_ne_zero⟩
    · exact (Nat.add_sub_cancel_left g.assigned 1).symm

theorem ages_insert {g : Graph K D} (c : Cell K D) (f : Node (Cell K D) → Node (Cell K D))
    (a : Formula K) :
    g.Ages { g.forget a with arena := (g.arena.insert c).2.modify (g.arena.insert c).1 f } where
  inserted := by simp
  assigned := Nat.le_refl _
  later := by
    refine (Arena.later_insert (m := 0) g.arena c f).mono ?_ (Nat.zero_le _)
    simp

end Graph

end GradientGraph
