import GradientGraph.Proofs.Graph.Edges
import Mathlib.Data.Fintype.Card
import Mathlib.Logic.Relation

/-!
# Owners

A node is owned by whatever refers to it from outside and by every live variable whose
formula reads it. Operations leave no node without an owner, if what they hand back counts
as one. To give references up takes away the nodes that lose their last owner, and then
what only these kept alive.
-/

set_option autoImplicit false

namespace GradientGraph

open GradientGraph.Graph

namespace Graph

variable {K D : Type}

def Owns (g : Graph K D) (m n : NodeId) : Prop :=
  ∃ a, g.formula? m = some a ∧ n ∈ a.expression.reads

/-- Whether every live node is in `N` or used by a variable, and the arena is free and lost
no node before. -/
structure Owned (N : Set NodeId) (g : Graph K D) : Prop where
  access : g.access = {}
  owner : ∀ n, g.arena.contains n → n ∈ N ∨ ∃ m, g.Owns m n

variable {N N' Q : Set NodeId} {g g' : Graph K D}

theorem Owned.mono (h : g.Owned N) (hN : N ⊆ N') : g.Owned N' where
  access := h.access
  owner := fun n hn => (h.owner n hn).imp_left fun hm => hN hm

theorem Owns.contains {m n : NodeId} (h : g.Owns m n) : g.arena.contains m := by
  obtain ⟨a, ha, -⟩ := h
  obtain ⟨x, hx, -⟩ := node?_of_formula ha
  exact Arena.contains_iff.mpr ⟨x, hx⟩

theorem mem_referenced_iff {n : NodeId} : n ∈ g.referenced ↔ ∃ m, g.Owns m n := by
  constructor
  · intro h
    obtain ⟨c, hc, hn⟩ := List.mem_flatMap.mp h
    obtain ⟨s, hs, hnode⟩ := List.mem_filterMap.mp hc
    obtain ⟨x, hx, rfl⟩ := Option.map_eq_some_iff.mp hnode
    obtain ⟨i, hi, hslot⟩ := Array.mem_iff_getElem.mp (Array.mem_toList_iff.mp hs)
    have hx : g.arena.node? ⟨i, s.generation⟩ = some x := by
      rw [Arena.node?_eq_some, Array.getElem?_eq_getElem hi, hslot, ← hx]
    cases ha : x.content.formula with
    | none =>
      rw [Cell.nodes, ha] at hn
      cases hn
    | some a =>
      rw [Cell.nodes, ha] at hn
      exact ⟨_, a, (formula?_of_node hx).trans ha, Formula.mem_nodes.mp hn⟩
  · rintro ⟨m, a, ha, hn⟩
    exact mem_referenced ha hn

theorem Owned.change (h : g.Owned N) {n : NodeId} (haccess : g'.access = g.access)
    (hlive : ∀ m, g'.arena.contains m → g.arena.contains m ∨ m ∈ Q)
    (hkept : ∀ m, m ≠ n → g'.formula? m = g.formula? m)
    (hformer : ∀ a, g.formula? n = some a → ∀ c ∈ a.expression.reads, c ∈ Q) :
    g'.Owned (Q ∪ N) where
  access := haccess.trans h.access
  owner := by
    intro c hc
    rcases hlive c hc with hc | hc
    · rcases h.owner c hc with hN | ⟨m, a, ha, hread⟩
      · exact .inl (.inr hN)
      · by_cases hm : m = n
        · subst hm
          exact .inl (.inl (hformer a ha c hread))
        · exact .inr ⟨m, a, (hkept m hm).trans ha, hread⟩
    · exact .inl (.inl hc)

theorem Owned.touches {T : Set NodeId} (h : g.Owned N) (ht : g.Touches T g') : g'.Owned N where
  access := ht.access.trans h.access
  owner := by
    intro n hn
    have howner := h.owner n (contains_of_skeleton ht.skeleton.symm hn)
    simpa only [Owns, formula?_of_skeleton ht.skeleton] using howner

section Release

theorem contains_removeNode {m n : NodeId} :
    (g.removeNode n).arena.contains m ↔ m ≠ n ∧ g.arena.contains m := by
  rw [removeNode, Arena.contains, Arena.node?_remove]
  by_cases hm : m = n
  · simp [hm]
  · simp [hm, Arena.contains]

theorem formula?_removeNode {m n : NodeId} (hm : m ≠ n) :
    (g.removeNode n).formula? m = g.formula? m := by
  rw [formula?, removeNode, Arena.content?, Arena.node?_remove, if_neg hm]
  rfl

theorem Owned.removeNode {n : NodeId} (h : g.Owned N) :
    (g.removeNode n).Owned ({c | c ∈ ((g.arena.content? n).map (·.nodes)).getD []} ∪ N) := by
  refine h.change (n := n) rfl (fun m hm => .inl (contains_removeNode.mp hm).2)
    (fun m hm => formula?_removeNode hm) fun a ha c hc => ?_
  obtain ⟨x, hx, hxa⟩ := Option.bind_eq_some_iff.mp ha
  rw [Set.mem_ofPred_eq, hx, Option.map_some, Option.getD_some, Cell.nodes, hxa]
  exact Formula.mem_nodes.mpr hc

/-- References that are given up leave no node without an owner, and no node is lost. -/
theorem Owned.release {held pending : List NodeId} (h : g.Owned {n | n ∈ pending ∨ n ∈ held}) :
    (g.release held pending).Owned {n | n ∈ held} := by
  fun_induction Graph.release held pending g with
  | case1 g =>
    exact h.mono fun n hn => hn.resolve_left List.not_mem_nil
  | case2 g n rest hkept ih =>
    refine ih ⟨h.access, fun m hm => ?_⟩
    rcases h.owner m hm with (hpending | hheld) | hused
    · rcases List.mem_cons.mp hpending with rfl | hrest
      · rcases hkept with hrest | hheld | hused
        · exact .inl (.inl hrest)
        · exact .inl (.inr hheld)
        · exact .inr (mem_referenced_iff.mp hused)
      · exact .inl (.inl hrest)
    · exact .inl (.inr hheld)
    · exact .inr hused
  | case3 g n rest _ hlive hfree ih =>
    -- what only the node that goes kept alive is given up next
    refine ih ⟨h.access, fun m hm => ?_⟩
    obtain ⟨hne, -⟩ := contains_removeNode.mp hm
    rcases h.removeNode.owner m hm with (hnodes | hpending | hheld) | hused
    · exact .inl (.inl (List.mem_append_left _ hnodes))
    · exact .inl (.inl (List.mem_append_right _ (List.mem_of_ne_of_mem hne hpending)))
    · exact .inl (.inr hheld)
    · exact .inr hused
  | case4 g n rest _ hlive hborrowed ih =>
    exact absurd (congrArg Access.borrows h.access) hborrowed
  | case5 g n rest _ hgone ih =>
    refine ih ⟨h.access, fun m hm => ?_⟩
    have hne : m ≠ n := by
      rintro rfl
      exact hgone hm
    rcases h.owner m hm with (hpending | hheld) | hused
    · exact .inl (.inl (List.mem_of_ne_of_mem hne hpending))
    · exact .inl (.inr hheld)
    · exact .inr hused

/-- While somebody has the arena in his hands, no node leaves it. -/
theorem arena_release_borrowed (h : g.access.borrows ≠ 0) (held pending : List NodeId) :
    (g.release held pending).arena = g.arena := by
  fun_induction Graph.release held pending g with
  | case1 g => rfl
  | case2 g n rest _ ih => exact ih h
  | case3 g n rest _ _ hfree ih => exact absurd hfree h
  | case4 g n rest _ _ _ ih => exact ih h
  | case5 g n rest _ _ ih => exact ih h

/-- A node that loses its last owner while the arena is borrowed stays there and is lost. -/
theorem release_borrowed (h : g.access.borrows ≠ 0) {held : List NodeId} {n : NodeId}
    (hlive : g.arena.contains n) (hheld : n ∉ held) (hused : n ∉ g.referenced) :
    g.release held [n] = g.loseNode := by
  have hfree : ¬(n ∈ ([] : List NodeId) ∨ n ∈ held ∨ n ∈ g.referenced) := by
    simp [hheld, hused]
  rw [Graph.release, if_neg hfree, if_pos hlive, if_neg h, Graph.release]

/-- So it is with what is given up by somebody who looks at the arena. -/
theorem borrowing_release {held : List NodeId} {n : NodeId} (hlive : g.arena.contains n)
    (hheld : n ∉ held) (hused : n ∉ g.referenced) :
    (borrowing do modify (Graph.release held [n]) : GraphM K D Unit) g =
      some ((), g.loseNode) := by
  let borrowed : Graph K D := { g with access.borrows := g.access.borrows + 1 }
  have hlost : borrowed.release held [n] = borrowed.loseNode :=
    release_borrowed (Nat.succ_ne_zero _) hlive hheld hused
  rw [run_borrowing, run_modify, hlost]
  rfl

end Release

section Roots

open Relation

/-- Whether no formula reads its own variable, not even through a chain of formulas. -/
def Acyclic (g : Graph K D) : Prop := ∀ n, ¬TransGen g.Owns n n

/-- Every live node is owned, through a chain of formulas, from outside or by a variable
that owns itself in this way. -/
theorem Owned.rooted (h : g.Owned N) {n : NodeId} (hn : g.arena.contains n) :
    ∃ m, (m ∈ N ∨ TransGen g.Owns m m) ∧ ReflTransGen g.Owns m n := by
  let Rooted (n : NodeId) : Prop :=
    ∃ m, (m ∈ N ∨ TransGen g.Owns m m) ∧ ReflTransGen g.Owns m n
  by_contra hroot
  -- chains of owners among the nodes that are not rooted cannot end and cannot come round
  let Stray : Type := {m // g.arena.contains m ∧ ¬Rooted m}
  have hfinite : Finite Stray := by
    have hids : {m | m ∈ g.arena.ids}.Finite := List.finite_toSet _
    exact (hids.subset fun m hm => Arena.mem_ids.mpr hm.1).to_subtype
  let Precedes (l m : Stray) : Prop := TransGen g.Owns l.1 m.1
  have htrans : IsTrans Stray Precedes := ⟨fun _ _ _ h h' => h.trans h'⟩
  have hirrefl : Std.Irrefl Precedes := ⟨fun m hm => m.2.2 ⟨m.1, .inr hm, .refl⟩⟩
  have hwell : WellFounded Precedes := Finite.wellFounded_of_trans_of_irrefl Precedes
  obtain ⟨m, -, hmin⟩ := hwell.has_min Set.univ ⟨⟨n, hn, hroot⟩, trivial⟩
  rcases h.owner m.1 m.2.1 with hN | ⟨l, hl⟩
  · exact m.2.2 ⟨m.1, .inl hN, .refl⟩
  · have hstray : ¬Rooted l := fun ⟨k, hk, hkl⟩ => m.2.2 ⟨k, hk, hkl.tail hl⟩
    exact hmin ⟨l, hl.contains, hstray⟩ trivial (.single hl)

theorem Owned.reached (h : g.Owned N) (hg : g.Acyclic) {n : NodeId} (hn : g.arena.contains n) :
    ∃ m ∈ N, ReflTransGen g.Owns m n := by
  obtain ⟨m, hm, hmn⟩ := h.rooted hn
  exact ⟨m, hm.resolve_right (hg m), hmn⟩

theorem Whole.reached {S : Set Nat} (h : g.Whole S N) {m n : NodeId} (hm : m ∈ N)
    (hmn : ReflTransGen g.Owns m n) : g.arena.contains n := by
  rcases ReflTransGen.cases_tail hmn with rfl | ⟨l, -, a, ha, hread⟩
  · exact h.held n hm
  · exact h.closed l a ha n hread

theorem Sheds.owns (h : g.Sheds g') {m n : NodeId} (hmn : g'.Owns m n) : g.Owns m n := by
  obtain ⟨a, ha, hread⟩ := hmn
  obtain ⟨x, hx, hxa⟩ := node?_of_formula ha
  exact ⟨a, (formula?_of_node (h.nodes m x hx)).trans hxa, hread⟩

theorem Sheds.acyclic (h : g.Sheds g') (hg : g.Acyclic) : g'.Acyclic :=
  fun n hn => hg n (TransGen.mono (fun _ _ => h.owns) n n hn)

end Roots

end Graph

section Rules

variable {K D α β : Type} {S : Set Nat} {N T : Set NodeId}

/-- Whether the computation leaves no node without an owner, if what it hands back in `Q`
counts as one, as long as the stamps in `S` were given out. -/
def Accounts (S : Set Nat) (N : Set NodeId) (m : GraphM K D α) (Q : α → Set NodeId) : Prop :=
  ∀ (g : Graph K D) (x : α) (g' : Graph K D), g.arena.Packed → g.Dated S → g.Owned N →
    m g = some (x, g') → g'.Owned (Q x ∪ N)

theorem Works.accounts {m : GraphM K D α} {R : α → Set Nat} (hm : Works S T m R)
    (Q : α → Set NodeId) : Accounts S N m Q := by
  intro g x g' _ hdated hg h
  exact (hg.touches (hm g x g' hdated h).1).mono Set.subset_union_right

theorem Works.accounts_bind {m : GraphM K D α} {f : α → GraphM K D β} {R : α → Set Nat}
    {Q : β → Set NodeId} (hm : Works S T m R) (hf : ∀ x, Accounts (R x ∪ S) N (f x) Q) :
    Accounts S N (m >>= f) Q := by
  intro g y g'' hpacked hdated hg h
  obtain ⟨x, g', hx, hy⟩ := exists_of_bind h
  obtain ⟨htouches, hdated'⟩ := hm g x g' hdated hx
  have hpacked' := packed_of_skeleton htouches.skeleton hpacked
  exact hf x g' y g'' hpacked' hdated' (hg.touches htouches) hy

theorem Accounts.map {m : GraphM K D α} {Q : α → Set NodeId} {R : β → Set NodeId}
    (hm : Accounts S N m Q) (f : α → β) (hR : ∀ x, Q x ⊆ R (f x)) :
    Accounts S N (do return f (← m)) R := by
  intro g y g' hpacked hdated hg h
  obtain ⟨x, _, hx, hy⟩ := exists_of_bind h
  cases hy
  exact (hm g x g' hpacked hdated hg hx).mono (Set.union_subset_union_left N (hR x))

theorem Graph.Owned.insert {g g' : Graph K D} (h : g.Owned N) (hpacked : g.arena.Packed)
    {c : Cell K D} {f : Node (Cell K D) → Node (Cell K D)}
    (harena : g'.arena = (g.arena.insert c).2.modify (g.arena.insert c).1 f)
    (haccess : g'.access = g.access) :
    g'.Owned ({(g.arena.insert c).1} ∪ N) := by
  have hnode (m : NodeId) (hm : m ≠ (g.arena.insert c).1) :
      g'.arena.node? m = g.arena.node? m := by
    rw [harena, Arena.node?_modify, if_neg hm, hpacked.node?_insert, if_neg hm]
  refine h.change (n := (g.arena.insert c).1) haccess (fun m hm => ?_) (fun m hm => ?_)
    fun a ha => ?_
  · by_cases hnew : m = (g.arena.insert c).1
    · exact .inr hnew
    · rw [Arena.contains, hnode m hnew] at hm
      exact .inl hm
  · rw [formula?, Arena.content?, hnode m hm]
    rfl
  · rw [formula?, Arena.content?, hpacked.fresh] at ha
    cases ha

theorem accounts_newVariable (v : Value K) :
    Accounts S N (newVariable v : GraphM K D NodeId) fun n => {n} := by
  intro g n g' hpacked _ hg h
  have hrun : (newVariable v : GraphM K D NodeId) g = some ((g.arena.insert { value := v }).1,
      { g with arena := (g.arena.insert { value := v }).2 }) := rfl
  rw [hrun] at h
  cases h
  exact hg.insert hpacked (Arena.modify_id fun _ => rfl).symm rfl

theorem Graph.Owned.assign {g g' : Graph K D} (h : g.Owned N) {n : NodeId}
    {f : Node (Cell K D) → Node (Cell K D)} (harena : g'.arena = g.arena.modify n f)
    (haccess : g'.access = g.access) :
    g'.Owned ({m | m ∈ ((g.formula? n).map (·.nodes)).getD []} ∪ N) := by
  refine h.change (n := n) haccess (fun m hm => ?_) (fun m hm => ?_) fun a ha c hc => ?_
  · rw [Arena.contains, harena, Arena.node?_modify] at hm
    split at hm
    · rw [Option.isSome_map] at hm
      rename_i hmn
      exact .inl (hmn ▸ hm)
    · exact .inl hm
  · rw [formula?, Arena.content?, harena, Arena.node?_modify, if_neg hm]
    rfl
  · rw [Set.mem_ofPred_eq, ha, Option.map_some, Option.getD_some]
    exact Formula.mem_nodes.mpr hc

theorem accounts_assignLiteral (n : NodeId) (v : Value K) :
    Accounts S N (assignLiteral n v : GraphM K D (List NodeId)) fun displaced =>
      {m | m ∈ displaced} := by
  intro g displaced g' _ _ hg h
  have h := Option.some.inj ((assignLiteral_run n v g).symm.trans h)
  let bare (c : Cell K D) : Cell K D := { c with value := v, formula := none }
  let changed : Graph K D := g.countAssignment.updateCell n bare
  cases hformer : g.formula? n with
  | none =>
    simp only [hformer] at h
    cases h
    have howned : changed.Owned (_ ∪ N) := hg.assign (n := n) rfl rfl
    rwa [hformer] at howned
  | some a =>
    simp only [hformer] at h
    cases h
    have howned : Owned (_ ∪ N) { changed with arena := changed.arena.resetChildren n } :=
      hg.assign (n := n) (Arena.modify_modify ..) rfl
    rwa [hformer] at howned

theorem Graph.attach_displaced {g g' : Graph K D} {n : NodeId} {a : Formula K} {v : Value K}
    {displaced : List NodeId} (h : attach n a v g = some (displaced, g')) :
    displaced = ((g.formula? n).map (·.nodes)).getD [] := by
  -- edges are all that is rebuilt before the former formula is looked up
  let edged : Arena (Cell K D) :=
    a.children.foldl (fun b c => b.addChild n c) (g.arena.resetChildren n)
  have hcontent : (edged.content? n).bind (·.formula) = g.formula? n := by
    unfold edged
    rw [Arena.content?, Arena.foldl_addChild, Arena.resetChildren, Arena.modify_modify,
      Arena.node?_modify, if_pos rfl, formula?, Arena.content?, Option.map_map]
    rfl
  rw [attach, run_bind, run_modify, Option.bind_some, run_bind, run_editArena, Option.bind_some,
    run_bind, addChildren_run] at h
  cases h
  rw [← hcontent]
  rfl

variable [Zero K] [Add K] [Mul K] [MulAdd K] [Capacity K] [NatCast K] [Calculus K]

theorem accounts_assignFormula (n : NodeId) (a : Formula K) :
    Accounts S N (assignFormula n a : GraphM K D (List NodeId)) fun displaced =>
      {m | m ∈ displaced} := by
  refine (works_evaluate (T := ∅) a.expression).accounts_bind fun v => ?_
  intro g displaced g' _ _ hg h
  obtain ⟨_, _, hcount, h⟩ := exists_of_bind h
  cases hcount
  have hdisplaced := attach_displaced h
  obtain ⟨_, hrun⟩ := attach_run n a v g.countAssignment
  rw [hrun] at h
  cases h
  rw [hdisplaced]
  exact hg.assign rfl rfl

theorem accounts_newComputed (a : Formula K) :
    Accounts S N (newComputed a : GraphM K D NodeId) fun n => {n} := by
  intro g n g' hpacked hdated hg h
  obtain ⟨v, g₁, hv, -⟩ := exists_of_bind h
  obtain ⟨htouches, hdated₁⟩ := works_evaluate (T := ∅) a.expression g v g₁ hdated hv
  have hpacked₁ := packed_of_skeleton htouches.skeleton hpacked
  have hg₁ := hg.touches htouches
  rw [newComputed_run hv] at h
  cases h
  exact hg₁.insert hpacked₁ rfl rfl

end Rules

end GradientGraph
