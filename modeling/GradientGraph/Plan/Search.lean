import GradientGraph.Error
import GradientGraph.Node.Arena
import GradientGraph.Node.Set

/-!
# Depth first search for a plan

The search walks from the targets down the edges of the arena and stops at
bounds and at nodes without an expression. A node is open while its children
are being visited and closed after them, so the closing order lists every
node after its children. An edge into an open node closes a cycle.
-/

set_option autoImplicit false

namespace GradientGraph

/-- An order in which the nodes between sources and targets can be worked
off, and what it was read from. -/
structure Plan where
  /-- Every node after its children. -/
  order : List NodeId
  /-- The nodes that are bounds or have no expression. -/
  sources : NodeSet
  /-- The version, when visited, of every node that is not a bound. -/
  versions : List (NodeId × UInt64)

namespace Plan

structure Frame where
  node : NodeId
  children : List NodeId

structure Search where
  /-- The open nodes, innermost first. -/
  opened : List Frame := []
  /-- The closed nodes, latest first. -/
  closed : List NodeId := []
  sources : NodeSet := .empty
  /-- Latest first. -/
  versions : List (NodeId × UInt64) := []

namespace Search

variable {α : Type}

def isOpen (s : Search) (n : NodeId) : Bool := s.opened.any (·.node = n)

def unseen (a : Arena α) (s : Search) : List NodeId :=
  a.ids.filter fun n => !s.isOpen n && !decide (n ∈ s.closed)

def pending (s : Search) : Nat := s.opened.foldr (fun f k => f.children.length + 1 + k) 0

/-- Meets a new node: closes it at once if the search stops there, and opens
it otherwise. -/
def enter (a : Arena α) (computed : α → Bool) (bounds : NodeSet) (n : NodeId) (s : Search) :
    Except Error Search :=
  match a.node? n with
  | none => .error .nodeNotIndexed
  | some x =>
    let versions := if n ∈ bounds then s.versions else (n, x.version) :: s.versions
    if n ∈ bounds ∨ computed x.content = false then
      .ok { s with closed := n :: s.closed, sources := s.sources.insert n, versions }
    else
      .ok { s with opened := ⟨n, x.children⟩ :: s.opened, versions }

theorem unseen_enter_lt {a : Arena α} {computed : α → Bool} {bounds : NodeSet} {n : NodeId}
    {s t : Search} (h : enter a computed bounds n s = .ok t) (ho : s.isOpen n = false)
    (hc : n ∉ s.closed) : (t.unseen a).length < (s.unseen a).length := by
  unfold enter at h
  cases hx : a.node? n with
  | none => simp [hx] at h
  | some x =>
    have hlive : n ∈ a.ids := Arena.mem_ids.mpr (Arena.contains_iff.mpr ⟨x, hx⟩)
    have hsub : t.unseen a = (s.unseen a).filter (fun k => k ≠ n) := by
      simp only [hx] at h
      unfold unseen
      rw [List.filter_filter]
      apply List.filter_congr
      intro k _
      by_cases hk : n = k
      · subst hk
        split at h <;> cases h <;> simp [isOpen]
      · split at h <;> cases h <;> simp [isOpen, hk, Ne.symm hk]
    rw [hsub, List.length_filter_lt_length_iff_exists]
    exact ⟨n, List.mem_filter.mpr ⟨hlive, by simp [ho, hc]⟩, by simp⟩

/-- One move: to the next child of the innermost open node, or out of that
node when no child is left. There is none when no node is open. -/
def advance (a : Arena α) (computed : α → Bool) (bounds : NodeSet) (s : Search) :
    Except Error (Option Search) :=
  match s.opened with
  | [] => .ok none
  | ⟨n, []⟩ :: rest => .ok (some { s with opened := rest, closed := n :: s.closed })
  | ⟨n, c :: cs⟩ :: rest =>
    if s.isOpen c then .error .cyclicDependency
    else if c ∈ s.closed then .ok (some { s with opened := ⟨n, cs⟩ :: rest })
    else (enter a computed bounds c { s with opened := ⟨n, cs⟩ :: rest }).map some

theorem advance_lt {a : Arena α} {computed : α → Bool} {bounds : NodeSet} {s t : Search}
    (h : advance a computed bounds s = .ok (some t)) :
    (t.unseen a).length < (s.unseen a).length ∨
      (t.unseen a).length = (s.unseen a).length ∧ t.pending < s.pending := by
  unfold advance at h
  split at h
  · simp at h
  · rename_i n rest hs
    obtain rfl : _ = t := by simpa using h
    refine .inr ⟨congrArg List.length (List.filter_congr fun k _ => ?_), by simp [pending, hs]⟩
    by_cases hk : n = k
    · subst hk
      simp [isOpen, hs]
    · simp [isOpen, hs, hk, Ne.symm hk]
  · rename_i n c cs rest hs
    have hsame : ∀ k, isOpen { s with opened := ⟨n, cs⟩ :: rest } k = s.isOpen k := by
      simp [isOpen, hs]
    have hunseen : unseen a { s with opened := ⟨n, cs⟩ :: rest } = s.unseen a := by
      simp [unseen, hsame]
    split at h
    · simp at h
    · rename_i ho
      split at h
      · obtain rfl : _ = t := by simpa using h
        exact .inr ⟨congrArg List.length hunseen, by simp [pending, hs]⟩
      · rename_i hc
        cases he : enter a computed bounds c { s with opened := ⟨n, cs⟩ :: rest } with
        | error e => simp [he, Except.map] at h
        | ok u =>
          obtain rfl : u = t := by simpa [he, Except.map] using h
          rw [← hunseen]
          exact .inl (unseen_enter_lt he (by simpa [hsame] using ho) hc)

def run (a : Arena α) (computed : α → Bool) (bounds : NodeSet) (s : Search) :
    Except Error Search :=
  match _h : advance a computed bounds s with
  | .error e => .error e
  | .ok none => .ok s
  | .ok (some t) => run a computed bounds t
termination_by ((s.unseen a).length, s.pending)
decreasing_by
  rcases advance_lt _h with h | ⟨h, h'⟩
  · exact Prod.Lex.left _ _ h
  · rw [h]
    exact Prod.Lex.right _ h'

def runAll (a : Arena α) (computed : α → Bool) (bounds : NodeSet) :
    List NodeId → Search → Except Error Search
  | [], s => .ok s
  | n :: ns, s =>
    if n ∈ s.closed then runAll a computed bounds ns s
    else do
      let s ← enter a computed bounds n s
      let s ← run a computed bounds s
      runAll a computed bounds ns s

end Search

variable {α : Type}

def build (a : Arena α) (computed : α → Bool) (targets bounds : NodeSet) :
    Except Error Plan := do
  let s ← Search.runAll a computed bounds targets.toList {}
  return { order := s.closed.reverse, sources := s.sources, versions := s.versions.reverse }

def isFresh (p : Plan) (a : Arena α) : Bool :=
  p.versions.all fun (n, v) => a.version? n = some v

def isLive (p : Plan) (a : Arena α) : Bool := p.order.all a.contains

end Plan

end GradientGraph
