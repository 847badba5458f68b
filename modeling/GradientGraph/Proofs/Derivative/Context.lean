import GradientGraph.Proofs.Derivative.Partial
import GradientGraph.Proofs.Graph.Context

/-!
# Served sizes in a context

Whether all parts of an expression have sizes that the derivatives serve does not change
when one of them is given a variable.
-/

set_option autoImplicit false

namespace GradientGraph

namespace Expression

variable {K : Type} [CommRing K] [Calculus K] {Serves : Nat → Prop}
  {ρ : NodeId → Option (Value K)} {e : Expression K} {v : Value K}

theorem yields_plain : e.plain.Yields Serves ρ v ↔ e.Yields Serves ρ v := by
  induction e generalizing v with
  | literal => exact Iff.rfl
  | read =>
    constructor
    · rintro ⟨⟩
      exact .read ‹_› ‹_›
    · rintro ⟨⟩
      exact .read ‹_› ‹_›
  | unary _ _ ih =>
    constructor
    · rintro ⟨⟩
      exact .unary (ih.mp ‹_›) ‹_›
    · rintro ⟨⟩
      exact .unary (ih.mpr ‹_›) ‹_›
  | binary _ _ _ ihl ihr =>
    constructor
    · rintro ⟨⟩
      exact .binary (ihl.mp ‹_›) (ihr.mp ‹_›) ‹_› ‹_›
    · rintro ⟨⟩
      exact .binary (ihl.mpr ‹_›) (ihr.mpr ‹_›) ‹_› ‹_›
  | shared _ _ ih =>
    constructor
    · exact fun h => .shared (ih.mp h)
    · rintro ⟨⟩
      exact ih.mpr ‹_›

namespace Context

variable {c : Context K}

theorem yields_part (hc : 0 < c.holes) (h : (c.fill e).Yields Serves ρ v) :
    ∃ w, e.Yields Serves ρ w := by
  induction c generalizing v with
  | hole => exact ⟨v, h⟩
  | literal => exact absurd hc (Nat.lt_irrefl 0)
  | read => exact absurd hc (Nat.lt_irrefl 0)
  | unary _ a ih =>
    cases h
    exact ih hc ‹_›
  | binary _ l r ihl ihr =>
    cases h
    rcases Nat.add_pos_iff_pos_or_pos.mp hc with hl | hr
    · exact ihl hl ‹_›
    · exact ihr hr ‹_›
  | shared _ c ih =>
    cases h
    exact ih hc ‹_›

theorem yields_fill {label : Label} {u : NodeId} (h : (c.fill e).Yields Serves ρ v)
    (hu : 0 < c.holes → ρ u = e.valueUnder ρ) : (c.fill (.read label u)).Yields Serves ρ v := by
  induction c generalizing v with
  | hole => exact .read ((hu Nat.one_pos).trans h.valueUnder_eq) h.serves
  | literal => exact h
  | read => exact h
  | unary _ a ih =>
    cases h
    exact .unary (ih ‹_› hu) ‹_›
  | binary _ l r ihl ihr =>
    cases h
    exact .binary (ihl ‹_› fun hl => hu (Nat.add_pos_left hl _))
      (ihr ‹_› fun hr => hu (Nat.add_pos_right _ hr)) ‹_› ‹_›
  | shared _ c ih =>
    cases h
    exact .shared (ih ‹_› hu)

end Context

end Expression

end GradientGraph
