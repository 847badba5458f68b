import GradientGraph.Proofs.Plan.Reach

/-!
# Cutting a search in two

A search from targets that stops nowhere is cut at nodes that it meets. One search goes
from the targets and stops at the cut, another goes on from the cut. Neither meets anything
that the whole search does not, and together they meet all of it.
-/

set_option autoImplicit false

namespace GradientGraph

namespace Plan

variable {α : Type} {a : Arena α} {computed : α → Bool} {targets bounds cut : NodeSet}
  {n c : NodeId}

theorem Expands.unbounded (h : Expands a computed bounds n) : Expands a computed .empty n :=
  ⟨NodeSet.not_mem_empty, h.2⟩

theorem Leads.unbounded (h : Leads a computed bounds n c) : Leads a computed .empty n c :=
  ⟨h.1.unbounded, h.2⟩

theorem Reaches.unbounded (h : Reaches a computed targets bounds n) :
    Reaches a computed targets .empty n := by
  induction h with
  | target ht => exact .target ht
  | child _ hleads ih => exact .child ih hleads.unbounded

theorem Reaches.trans (hcut : ∀ s ∈ cut, Reaches a computed targets bounds s)
    (h : Reaches a computed cut bounds n) : Reaches a computed targets bounds n := by
  induction h with
  | target hs => exact hcut _ hs
  | child _ hleads ih => exact .child ih hleads

/-- A node is reached without going through the cut, or from the cut. -/
theorem Reaches.above_or_below (h : Reaches a computed targets .empty n) :
    Reaches a computed targets cut n ∨ Reaches a computed cut .empty n := by
  induction h with
  | target ht => exact .inl (.target ht)
  | @child m c _ hleads ih =>
    rcases ih with habove | hbelow
    · by_cases hm : m ∈ cut
      · exact .inr (.child (.target hm) hleads)
      · exact .inl (.child habove ⟨⟨hm, hleads.1.2⟩, hleads.2⟩)
    · exact .inr (.child hbelow hleads)

theorem Cyclic.unbounded (h : Cyclic a computed targets bounds) :
    Cyclic a computed targets .empty := by
  obtain ⟨n, hn, hcycle⟩ := h
  exact ⟨n, hn.unbounded,
    Relation.TransGen.mono (fun _ _ hleads => Leads.unbounded hleads) _ _ hcycle⟩

theorem Cyclic.trans (hcut : ∀ s ∈ cut, Reaches a computed targets bounds s)
    (h : Cyclic a computed cut bounds) : Cyclic a computed targets bounds := by
  obtain ⟨n, hn, hcycle⟩ := h
  exact ⟨n, hn.trans hcut, hcycle⟩

variable {p : Plan}

/-- Where the whole search makes a plan, bounds do not keep it from making one. -/
theorem build_bounded (h : build a computed targets .empty = .ok p) (bounds : NodeSet) :
    ∃ above, build a computed targets bounds = .ok above := by
  obtain ⟨hlive, hacyclic⟩ := build_ok_iff.mp ⟨p, h⟩
  exact build_ok_iff.mpr ⟨fun n hn => hlive n hn.unbounded, fun hc => hacyclic hc.unbounded⟩

theorem build_below (h : build a computed targets bounds = .ok p)
    (hcut : ∀ s ∈ cut, s ∈ p.order) : ∃ below, build a computed cut bounds = .ok below := by
  have hreach : ∀ s ∈ cut, Reaches a computed targets bounds s :=
    fun s hs => ((build_orders h).members s).mp (hcut s hs)
  obtain ⟨hlive, hacyclic⟩ := build_ok_iff.mp ⟨p, h⟩
  exact build_ok_iff.mpr
    ⟨fun n hn => hlive n (hn.trans hreach), fun hc => hacyclic (hc.trans hreach)⟩

end Plan

end GradientGraph
