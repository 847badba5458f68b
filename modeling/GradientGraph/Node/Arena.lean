import GradientGraph.Node.Id

/-!
# The arena of nodes

Nodes live in numbered slots. A removed node leaves its slot vacant; the slot
vacated last is filled first, under the next generation, so that no later
node answers to an earlier identity until the generations wrap around.
Besides its content a node holds the edges to the nodes it depends on and a
version, which counts how often those edges were rebuilt.
-/

set_option autoImplicit false

namespace GradientGraph

structure Node (α : Type) where
  content : α
  children : List NodeId := []
  version : UInt64 := 0

structure Slot (α : Type) where
  generation : UInt32
  node : Option (Node α)

structure Arena (α : Type) where
  slots : Array (Slot α) := #[]
  /-- The vacant slots, the one to fill next in front. -/
  vacant : List Nat := []
  /-- How many nodes were ever inserted. No operation reads this count. It tells
  how far the generations are from wrapping around. -/
  inserted : Nat := 0

namespace Arena

variable {α : Type}

def node? (a : Arena α) (n : NodeId) : Option (Node α) :=
  match a.slots[n.index]? with
  | some s => if s.generation = n.generation then s.node else none
  | none => none

def contains (a : Arena α) (n : NodeId) : Bool := (a.node? n).isSome

def size (a : Arena α) : Nat := a.slots.countP (·.node.isSome)

def ids (a : Arena α) : List NodeId :=
  a.slots.toList.zipIdx.filterMap fun (s, i) => s.node.map fun _ => ⟨i, s.generation⟩

def contents (a : Arena α) : List α :=
  a.slots.toList.filterMap fun s => s.node.map (·.content)

/-- Puts new content into a vacant slot, or into a new one if none is vacant. -/
def insert (a : Arena α) (content : α) : NodeId × Arena α :=
  match a.vacant with
  | [] =>
    (⟨a.slots.size, 0⟩,
      { a with slots := a.slots.push ⟨0, some { content }⟩, inserted := a.inserted + 1 })
  | i :: rest =>
    let generation := (a.slots[i]?.map (·.generation + 1)).getD 0
    (⟨i, generation⟩,
      { a with
        slots := a.slots.setIfInBounds i ⟨generation, some { content }⟩
        vacant := rest
        inserted := a.inserted + 1 })

def remove (a : Arena α) (n : NodeId) : Arena α :=
  if a.contains n then
    { a with
      slots := a.slots.setIfInBounds n.index ⟨n.generation, none⟩
      vacant := n.index :: a.vacant }
  else a

def modify (a : Arena α) (n : NodeId) (f : Node α → Node α) : Arena α :=
  if a.contains n then
    { a with slots := a.slots.modify n.index fun s => { s with node := s.node.map f } }
  else a

def children? (a : Arena α) (n : NodeId) : Option (List NodeId) := (a.node? n).map (·.children)

def version? (a : Arena α) (n : NodeId) : Option UInt64 := (a.node? n).map (·.version)

def content? (a : Arena α) (n : NodeId) : Option α := (a.node? n).map (·.content)

def addChild (a : Arena α) (n child : NodeId) : Arena α :=
  a.modify n fun x =>
    if child ∈ x.children then x else { x with children := x.children ++ [child] }

def resetChildren (a : Arena α) (n : NodeId) : Arena α :=
  a.modify n fun x => { x with children := [], version := x.version + 1 }

theorem node?_eq_some {a : Arena α} {n : NodeId} {x : Node α} :
    a.node? n = some x ↔ a.slots[n.index]? = some ⟨n.generation, some x⟩ := by
  unfold node?
  cases h : a.slots[n.index]? with
  | none => simp
  | some s =>
    obtain ⟨g, y⟩ := s
    by_cases hg : g = n.generation <;> simp [hg]

theorem contains_iff {a : Arena α} {n : NodeId} : a.contains n ↔ ∃ x, a.node? n = some x := by
  simp [contains, Option.isSome_iff_exists]

theorem mem_ids {a : Arena α} {n : NodeId} : n ∈ a.ids ↔ a.contains n := by
  rw [contains_iff]
  simp only [ids, List.mem_filterMap, Prod.exists, Option.map_eq_some_iff, node?_eq_some]
  constructor
  · rintro ⟨⟨g, y⟩, i, hs, x, hy, rfl⟩
    have := List.mem_zipIdx_iff_getElem?.mp hs
    simp only at hy this
    exact ⟨x, by rw [← hy]; simpa using this⟩
  · rintro ⟨x, hx⟩
    exact ⟨_, n.index, List.mem_zipIdx_iff_getElem?.mpr (by simpa using hx), x, rfl, rfl⟩

theorem size_remove_lt {a : Arena α} {n : NodeId} (h : a.contains n) :
    (a.remove n).size < a.size := by
  obtain ⟨x, hx⟩ := contains_iff.mp h
  rw [node?_eq_some] at hx
  obtain ⟨hi, hx⟩ := Array.getElem?_eq_some_iff.mp hx
  have hpos : 0 < a.slots.countP (·.node.isSome) :=
    Array.countP_pos_iff.mpr ⟨_, Array.getElem_mem hi, by simp [hx]⟩
  simp only [remove, h, if_true, size, Array.setIfInBounds, hi, dif_pos]
  rw [Array.countP_set]
  simp only [hx, Option.isSome_some, Option.isSome_none, if_true]
  simp only [Bool.false_eq_true, if_false]
  omega

end Arena

end GradientGraph
