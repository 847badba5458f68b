import GradientGraph.Graph.State

/-!
# Ownership

A node lives as long as something owns it: a handle from outside, or the
formula of a node that lives itself. Nodes whose formulas read each other in
a cycle own each other. `release` gives references up one after the
other; a node that loses its last owner leaves the arena, and then gives up
what its own formula kept alive. If the arena is borrowed, the node stays
behind without an owner.
-/

set_option autoImplicit false

namespace GradientGraph

namespace Graph

variable {K D : Type}

def referenced (g : Graph K D) : List NodeId := g.arena.contents.flatMap (·.nodes)

def removeNode (g : Graph K D) (n : NodeId) : Graph K D := { g with arena := g.arena.remove n }

def loseNode (g : Graph K D) : Graph K D := { g with access.lost := g.access.lost + 1 }

/-- Gives up the references `pending` while `held` are still held from
outside. -/
def release (held : List NodeId) (pending : List NodeId) (g : Graph K D) : Graph K D :=
  match pending with
  | [] => g
  | n :: rest =>
    if n ∈ rest ∨ n ∈ held ∨ n ∈ g.referenced then release held rest g
    else if g.arena.contains n then
      if g.access.borrows = 0 then
        release held (((g.arena.content? n).map (·.nodes)).getD [] ++ rest) (g.removeNode n)
      else release held rest g.loseNode
    else release held rest g
termination_by (g.arena.size, pending.length)
decreasing_by
  · exact Prod.Lex.right _ (Nat.lt_succ_self _)
  · exact Prod.Lex.left _ _ (Arena.size_remove_lt (by assumption))
  · exact Prod.Lex.right _ (Nat.lt_succ_self _)
  · exact Prod.Lex.right _ (Nat.lt_succ_self _)

/-- What holds however often a node goes that nobody owns, or is lost, holds once
references were given up. -/
theorem release_induction {P : Graph K D → Prop} {held : List NodeId} {g : Graph K D} (h : P g)
    (hremove : ∀ g n, P g → n ∉ held → n ∉ g.referenced → P (g.removeNode n))
    (hlose : ∀ g, P g → P g.loseNode) (pending : List NodeId) : P (g.release held pending) := by
  fun_induction release held pending g with
  | case1 g => exact h
  | case2 g n rest _ ih => exact ih h
  | case3 g n rest howned _ _ ih =>
    rw [not_or, not_or] at howned
    exact ih (hremove g n h howned.2.1 howned.2.2)
  | case4 g n rest _ _ _ ih => exact ih (hlose g h)
  | case5 g n rest _ _ ih => exact ih h

theorem release_held {held pending : List NodeId} (g : Graph K D)
    (h : ∀ n ∈ pending, n ∈ held) : g.release held pending = g := by
  induction pending with
  | nil => rw [release]
  | cons n rest ih =>
    rw [release, if_pos (.inr (.inl (h n (List.mem_cons_self ..))))]
    exact ih fun m hm => h m (List.mem_cons_of_mem n hm)

@[simp] theorem release_nil (held : List NodeId) (g : Graph K D) : g.release held [] = g := by
  rw [release]

end Graph

end GradientGraph
