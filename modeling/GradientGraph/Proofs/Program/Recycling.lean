import GradientGraph.Proofs.Program.Caching
import GradientGraph.Proofs.Workbench.Residue

/-!
# Places that are filled again

A plan knows nodes by their places and generations. A place that was emptied is filled under
the next generation, so that plans for the node that was there are refused, but generations
come round. Here a program is compiled for a copy of one variable, the copy is dropped, its
place is filled and emptied any number of times, and then taken by a copy of another variable,
which is not in the plan. The plan is refused unless the number of nodes that the place has
held since is a multiple of the number of generations.
-/

set_option autoImplicit false

namespace GradientGraph

namespace Recycling

open GradientGraph.Graph Workbench
open Twice (source target)

variable {K D : Type} (x z : Value K)

def other : NodeId := ⟨2, 0⟩

def copy (label : Label) (n : NodeId) (v : Value K) : Node (Cell K D) where
  content := { value := v, formula := some (.read label n) }
  children := [n]
  version := 1

def arena (middle : Slot (Cell K D)) (vacant : List Nat) (inserted : Nat) : Arena (Cell K D) where
  slots :=
    #[⟨0, some { content := { value := x } }⟩, middle, ⟨0, some { content := { value := z } }⟩]
  vacant
  inserted

theorem release_middle {generation : UInt32} {y : Node (Cell K D)} {label inserted : Nat}
    {held : List NodeId} (hheld : (⟨1, generation⟩ : NodeId) ∉ held)
    (hreads : ∀ n ∈ y.content.nodes, n ∈ held) :
    ({ arena := arena x z ⟨generation, some y⟩ [] inserted, nextLabel := label } :
      Graph K D).release held [⟨1, generation⟩] =
        { arena := arena x z ⟨generation, none⟩ [1] inserted, nextLabel := label } := by
  let g : Graph K D :=
    { arena := arena x z ⟨generation, some y⟩ [] inserted, nextLabel := label }
  have hnode : g.arena.node? ⟨1, generation⟩ = some y := Arena.node?_eq_some.mpr rfl
  have hlive : g.arena.contains ⟨1, generation⟩ = true := Arena.contains_iff.mpr ⟨y, hnode⟩
  have hreferenced : g.referenced = y.content.nodes := by
    change [] ++ (y.content.nodes ++ ([] ++ [])) = _
    simp
  have hfree : ¬((⟨1, generation⟩ : NodeId) ∈ ([] : List NodeId) ∨
      (⟨1, generation⟩ : NodeId) ∈ held ∨ (⟨1, generation⟩ : NodeId) ∈ g.referenced) := by
    rw [hreferenced]
    rintro (h | h | h)
    · cases h
    · exact hheld h
    · exact hheld (hreads _ h)
  have hremoved : g.removeNode ⟨1, generation⟩ =
      { arena := arena x z ⟨generation, none⟩ [1] inserted, nextLabel := label } := by
    rw [removeNode, Arena.remove, if_pos hlive]
    rfl
  change g.release held _ = _
  rw [Graph.release, if_neg hfree, if_pos hlive, if_pos rfl, Arena.content?, hnode, hremoved]
  refine release_held _ fun n hn => hreads n ?_
  simpa using hn

def workbench (middle : Slot (Cell K D)) (vacant : List Nat) (inserted nextLabel : Nat)
    (items : Table (Item K)) : Workbench K D where
  graph := { arena := arena x z middle vacant inserted, nextLabel }
  items
  programs := [("f", { (Twice.program : Program D) with state := .compiled Twice.plan })]

theorem release_workbench {generation : UInt32} {y : Node (Cell K D)} {label inserted : Nat}
    {items : Table (Item K)} (hheld : (⟨1, generation⟩ : NodeId) ∉ itemNodes items)
    (hreads : ∀ n ∈ y.content.nodes, n ∈ itemNodes items) :
    (workbench x z ⟨generation, some y⟩ [] inserted label items : Workbench K D).release
        [⟨1, generation⟩] =
      workbench x z ⟨generation, none⟩ [1] inserted label items := by
  simp only [Workbench.release, workbench, release_middle x z hheld hreads]

def outer : Table (Item K) :=
  [("x", .var x.category source), ("z", .var z.category other)]

theorem middle_not_held (generation : UInt32) :
    (⟨1, generation⟩ : NodeId) ∉ itemNodes (outer x z) := by
  simp [itemNodes, outer, Item.nodes, source, other]

def vacated (generation : UInt32) (inserted : Nat) : Workbench K D :=
  workbench x z ⟨generation, none⟩ [1] inserted 1 (outer x z)

def filled (generation : UInt32) (inserted : Nat) : Workbench K D :=
  workbench x z ⟨generation, some { content := { value := x } }⟩ [] inserted 1
    (outer x z ++ [("t", .var x.category ⟨1, generation⟩)])

/-- The place in the middle is taken by a copy of the third variable. -/
def renewed (generation : UInt32) (inserted : Nat) : Workbench K D :=
  workbench x z ⟨generation, some (copy 1 other z)⟩ [] inserted 2
    (outer x z ++ [("y", .var z.category ⟨1, generation⟩)])

section Start

def literal : Workbench K D where
  graph := { arena := (({} : Arena (Cell K D)).insert { value := x }).2 }
  items := [("x", .var x.category source)]

def copied (programs : Table (Program D)) : Workbench K D where
  graph := {
    arena :=
      { slots := #[⟨0, some { content := { value := x } }⟩, ⟨0, some (copy 0 source x)⟩]
        inserted := 2 }
    nextLabel := 1 }
  items := [("x", .var x.category source), ("y", .var x.category target)]
  programs

theorem compile_copied [Calculus K] (programs : Table (Program D)) :
    (Twice.program : Program D).compile (copied x programs : Workbench K D).graph =
      ({ Twice.program with state := .compiled Twice.plan }, .ok ()) :=
  Twice.compile_alike rfl rfl ⟨rfl, rfl, rfl⟩ ⟨rfl, rfl, rfl⟩ .dot x .absent

variable [Zero K] [Add K] [Mul K] [MulAdd K] [Capacity K] [NatCast K] [Calculus K]

theorem newComputed_copy (generation : UInt32) (inserted : Nat) :
    newComputed (.read 1 other)
        { (vacated x z generation inserted : Workbench K D).graph with nextLabel := 2 } =
      some (⟨1, generation + 1⟩,
        (renewed x z (generation + 1) (inserted + 1) : Workbench K D).graph) := by
  let a : Arena (Cell K D) :=
    arena x z ⟨generation + 1, some { content := { value := z } }⟩ [] (inserted + 1)
  have hnode : a.contains ⟨1, generation + 1⟩ :=
    Arena.contains_iff.mpr ⟨_, Arena.node?_eq_some.mpr rfl⟩
  have hmodify : a.modify ⟨1, generation + 1⟩ (Node.attach (.read 1 other) z) =
      arena x z ⟨generation + 1, some (copy 1 other z)⟩ [] (inserted + 1) := by
    rw [Arena.modify, if_pos hnode]
    rfl
  rw [newComputed_run rfl]
  exact congrArg (fun arena => some ((⟨1, generation + 1⟩ : NodeId),
    ({ arena, nextLabel := 2 } : Graph K D))) hmodify

end Start

section Steps

variable [Zero K] [One K] [Add K] [Mul K] [MulAdd K] [Capacity K] [NatCast K] [Calculus K]
  [NumberText K] [Differential K D] [HostDerivative K D]

theorem unprobed_copied : (copied x [("f", { (Twice.program : Program D) with
    state := .compiled Twice.plan })] : Workbench K D).Unprobed := by
  have hliteral : ({} : Workbench K D).step (.newVariable (.literal x) "x") =
      some (literal x, .ok (.text "variable")) := by
    change some (({ graph := (literal x : Workbench K D).graph } : Workbench K D).store "x" _, _) =
      _
    rw [store_new _ rfl]
    rfl
  have hcopy : (literal x : Workbench K D).step (.newVariable (.ref "x") "y") =
      some (copied x [], .ok (.text "variable")) := by
    change some (({ literal x with graph := (copied x [] : Workbench K D).graph } :
      Workbench K D).store "y" (.var x.category target), _) = _
    rw [store_new _ rfl]
    rfl
  have hcopied := (Unprobed.start.step _ id hliteral).step _ id hcopy
  have hprogram : (copied x [("f", Twice.program)] : Workbench K D).Unprobed :=
    hcopied.step (.program ["y"] [] "f") id rfl
  exact hprogram.step (.run "f" .compile) id (step_compile_ok rfl (compile_copied x _))

theorem unprobed_vacated : (vacated x z 0 3 : Workbench K D).Unprobed := by
  let items : Table (Item K) :=
    [("x", .var x.category source), ("y", .var x.category target), ("z", .var z.category other)]
  let full : Workbench K D := workbench x z ⟨0, some (copy 0 source x)⟩ [] 3 1 items
  have hthird : (copied x [("f", { (Twice.program : Program D) with
      state := .compiled Twice.plan })]).step (.newVariable (.literal z) "z") =
        some (full, .ok (.text "variable")) := by
    change some (Workbench.store { full with items := (copied x [] : Workbench K D).items } "z" _,
      _) = _
    rw [store_new _ rfl]
    rfl
  have hdrop : full.step (.drop "y") = some (vacated x z 0 3, .ok .nothing) := by
    have hreads : ∀ n ∈ (copy 0 source x : Node (Cell K D)).content.nodes,
        n ∈ itemNodes (outer x z) := by
      intro n hn
      obtain rfl := List.mem_singleton.mp hn
      exact List.mem_cons_self ..
    change some ((workbench x z ⟨0, some (copy 0 source x)⟩ [] 3 1 (outer x z)).release [target],
      _) = _
    rw [target, release_workbench x z (middle_not_held x z 0) hreads]
    rfl
  exact ((unprobed_copied x).step _ id hthird).step _ id hdrop

theorem unprobed_round {generation : UInt32} {inserted : Nat}
    (h : (vacated x z generation inserted : Workbench K D).Unprobed) :
    (vacated x z (generation + 1) (inserted + 1) : Workbench K D).Unprobed := by
  have hfill : (vacated x z generation inserted : Workbench K D).step
      (.newVariable (.literal x) "t") =
        some (filled x z (generation + 1) (inserted + 1), .ok (.text "variable")) := by
    change some (Workbench.store { filled x z (generation + 1) (inserted + 1) with
      items := outer x z } "t" _, _) = _
    rw [store_new _ rfl]
    rfl
  have hempty : (filled x z (generation + 1) (inserted + 1) : Workbench K D).step (.drop "t") =
      some (vacated x z (generation + 1) (inserted + 1), .ok .nothing) := by
    change some ((workbench x z ⟨generation + 1, some { content := { value := x } }⟩ []
      (inserted + 1) 1 (outer x z)).release [⟨1, generation + 1⟩], _) = _
    rw [release_workbench x z (middle_not_held x z _) fun n hn => absurd hn List.not_mem_nil]
    rfl
  exact (h.step _ id hfill).step _ id hempty

theorem unprobed_renewal {generation : UInt32} {inserted : Nat}
    (h : (vacated x z generation inserted : Workbench K D).Unprobed) :
    (renewed x z (generation + 1) (inserted + 1) : Workbench K D).Unprobed := by
  have hcopy : (vacated x z generation inserted : Workbench K D).step
      (.newVariable (.ref "z") "y") =
        some (renewed x z (generation + 1) (inserted + 1), .ok (.text "variable")) := by
    have hread : ((Item.var z.category other).formula : GraphM K D (Formula K))
        (vacated x z generation inserted : Workbench K D).graph = some (.read 1 other,
          { (vacated x z generation inserted : Workbench K D).graph with nextLabel := 2 }) := rfl
    change (vacated x z generation inserted : Workbench K D).make "y"
      (do return .var z.category (← newComputed (← (Item.var z.category other).formula))) = _
    rw [make, Workbench.onGraph, run_bind, hread, Option.bind_some, run_bind, newComputed_copy]
    change some (Workbench.store { renewed x z (generation + 1) (inserted + 1) with
      items := outer x z } "y" _, _) = _
    rw [store_new _ rfl]
    rfl
  exact h.step _ id hcopy

theorem unprobed_rounds (k : Nat) :
    (vacated x z (.ofNat k) (k + 3) : Workbench K D).Unprobed := by
  induction k with
  | zero => exact unprobed_vacated x z
  | succ k ih =>
    rw [UInt32.ofNat_add, Nat.add_right_comm]
    exact unprobed_round x z ih

theorem unprobed_renewed (k : Nat) :
    (renewed x z (.ofNat (k + 1)) (k + 4) : Workbench K D).Unprobed := by
  rw [UInt32.ofNat_add]
  exact unprobed_renewal x z (unprobed_rounds x z k)

end Steps

theorem isFresh_renewed (generation : UInt32) (inserted : Nat) :
    Twice.plan.isFresh (renewed x z generation inserted : Workbench K D).graph.arena ↔
      generation = 0 := by
  by_cases h : generation = 0
  · subst h
    exact iff_of_true rfl rfl
  · have hgone : (renewed x z generation inserted : Workbench K D).graph.arena.version? target =
        none := by
      simp [Arena.version?, Arena.node?, renewed, workbench, arena, target, h]
    simp [Plan.isFresh, Twice.plan, hgone, h]

/-- The plan was made before `k + 1` nodes came into the place one after the other. It is
accepted in the end just if that is a multiple of the number of generations. -/
theorem isFresh_iff (k : Nat) :
    Twice.plan.isFresh (renewed x z (.ofNat (k + 1)) (k + 4) : Workbench K D).graph.arena ↔
      UInt32.size ∣ k + 1 := by
  rw [isFresh_renewed, ← UInt32.toNat_inj, UInt32.toNat_ofNat', Nat.dvd_iff_mod_eq_zero]
  rfl

section Wrapped

variable (s t : Option (Stamped D)) (next : Nat)

/-- The place is under its first generation again. The variables that are read hold the
derivatives `s` and `t`. -/
def wrapped : Workbench K D :=
  { (renewed x z 0 (UInt32.size + 3) : Workbench K D) with
    graph := {
      arena :=
        { slots := #[⟨0, some { content := { value := x, derivative := s } }⟩,
            ⟨0, some (copy 1 other z)⟩,
            ⟨0, some { content := { value := z, derivative := t } }⟩]
          inserted := UInt32.size + 3 }
      nextLabel := 2
      nextStamp := next } }

variable [Zero K] [One K] [Add K] [Mul K] [MulAdd K] [Capacity K] [NatCast K] [Calculus K]
  [NumberText K] [Differential K D] [HostDerivative K D]

theorem unprobed_wrapped : (wrapped x z none none 0 : Workbench K D).Unprobed := by
  have hsize : UInt32.ofNat (UInt32.size - 1 + 1) = 0 := rfl
  have h := unprobed_renewed (K := K) (D := D) x z (UInt32.size - 1)
  rw [hsize] at h
  exact h

theorem unprobed_wrapped_one (d : D) :
    (wrapped x z none (some ⟨0, d⟩) 1 : Workbench K D).Unprobed :=
  (unprobed_wrapped x z).step (.setDerivative "z" d) id rfl

theorem unprobed_wrapped_both (c d : D) :
    (wrapped x z (some ⟨1, c⟩) (some ⟨0, d⟩) 2 : Workbench K D).Unprobed :=
  (unprobed_wrapped_one x z d).step (.setDerivative "x" c) id rfl

end Wrapped

end Recycling

end GradientGraph
