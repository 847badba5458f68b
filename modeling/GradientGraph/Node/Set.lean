import GradientGraph.Node.Id

/-!
# Sets of nodes

A finite set of nodes, listed in ascending order.
-/

set_option autoImplicit false

namespace GradientGraph

structure NodeSet where
  toList : List NodeId
  ascending : toList.Pairwise (· < ·)

namespace NodeSet

def empty : NodeSet := ⟨[], .nil⟩

def insertList (n : NodeId) : List NodeId → List NodeId
  | [] => [n]
  | m :: ms => if n < m then n :: m :: ms else if n = m then m :: ms else m :: insertList n ms

theorem mem_insertList {n k : NodeId} {ms : List NodeId} :
    k ∈ insertList n ms ↔ k = n ∨ k ∈ ms := by
  induction ms with
  | nil => simp [insertList]
  | cons m ms ih =>
    simp only [insertList]
    split
    · simp
    · split
      · rename_i h
        simp [h]
      · simp only [List.mem_cons, ih]
        exact or_left_comm

theorem pairwise_insertList (n : NodeId) {ms : List NodeId} (h : ms.Pairwise (· < ·)) :
    (insertList n ms).Pairwise (· < ·) := by
  induction ms with
  | nil => simp [insertList]
  | cons m ms ih =>
    obtain ⟨hm, hms⟩ := List.pairwise_cons.mp h
    simp only [insertList]
    split
    · rename_i hn
      refine List.pairwise_cons.mpr ⟨fun k hk => ?_, h⟩
      rcases List.mem_cons.mp hk with rfl | hk
      · exact hn
      · exact NodeId.lt_trans hn (hm k hk)
    · split
      · exact h
      · rename_i hn hne
        refine List.pairwise_cons.mpr ⟨fun k hk => ?_, ih hms⟩
        rcases mem_insertList.mp hk with rfl | hk
        · exact NodeId.lt_of_not_lt hn hne
        · exact hm k hk

def insert (s : NodeSet) (n : NodeId) : NodeSet :=
  ⟨insertList n s.toList, pairwise_insertList n s.ascending⟩

def ofList (ns : List NodeId) : NodeSet := ns.foldl insert empty

instance : Membership NodeId NodeSet where
  mem s n := n ∈ s.toList

instance (n : NodeId) (s : NodeSet) : Decidable (n ∈ s) :=
  inferInstanceAs (Decidable (n ∈ s.toList))

def size (s : NodeSet) : Nat := s.toList.length

def isEmpty (s : NodeSet) : Bool := s.toList.isEmpty

@[simp] theorem mem_insert {s : NodeSet} {n k : NodeId} : k ∈ s.insert n ↔ k = n ∨ k ∈ s :=
  mem_insertList

@[simp] theorem not_mem_empty {k : NodeId} : k ∉ empty := List.not_mem_nil

theorem mem_ofList {ns : List NodeId} {k : NodeId} : k ∈ ofList ns ↔ k ∈ ns := by
  suffices h : ∀ s : NodeSet, k ∈ ns.foldl insert s ↔ k ∈ ns ∨ k ∈ s by simpa [ofList] using h empty
  induction ns with
  | nil => simp
  | cons n ns ih =>
    intro s
    rw [List.foldl_cons, ih, mem_insert, List.mem_cons, or_assoc, or_left_comm]

end NodeSet

end GradientGraph
