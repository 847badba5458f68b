import GradientGraph.Proofs.Graph.Orderly

/-!
# Computations that make formulas

A computation that makes formulas and gives some to variables leaves an orderly graph
if it is told of all formulas that are held. What it makes is then held as well.
-/

set_option autoImplicit false

namespace GradientGraph

open GradientGraph.Graph

section Rules

variable {K D α β : Type} {H H' : Set (Formula K)}

/-- Whether the computation ages an orderly graph and leaves it orderly, with the
formulas `Q` of its result held beside those of `H`. -/
def Brings (H : Set (Formula K)) (m : GraphM K D α) (Q : α → Set (Formula K)) : Prop :=
  ∀ (g : Graph K D) (x : α) (g' : Graph K D), g.Orderly H → m g = some (x, g') →
    g.Ages g' ∧ g'.Orderly (Q x ∪ H)

theorem Silent.brings {m : GraphM K D α} (hm : Silent m) : Brings H m fun _ => ∅ := by
  intro g x g' hg h
  have hkeeps := hm g x g' h
  exact ⟨hkeeps.ages, (hg.keeps hkeeps).mono (by simp)⟩

theorem brings_pure {x : α} {Q : α → Set (Formula K)} (hQ : Q x ⊆ H) :
    Brings H (pure x : GraphM K D α) Q := by
  intro g y g' hg h
  cases h
  exact ⟨.refl g, hg.mono (Set.union_subset hQ (subset_refl H))⟩

theorem Brings.bind {m : GraphM K D α} {f : α → GraphM K D β} {Q : α → Set (Formula K)}
    {R : β → Set (Formula K)} (hm : Brings H m Q) (hf : ∀ x, Brings (Q x ∪ H) (f x) R) :
    Brings H (m >>= f) R := by
  intro g y g'' hg h
  obtain ⟨x, g', hx, hy⟩ := exists_of_bind h
  obtain ⟨hages, horderly⟩ := hm g x g' hg hx
  obtain ⟨hages', horderly'⟩ := hf x g' y g'' horderly hy
  refine ⟨hages.trans hages', horderly'.mono ?_⟩
  exact Set.union_subset_union_right _ Set.subset_union_right

theorem Silent.before {m : GraphM K D α} {f : α → GraphM K D β} {R : β → Set (Formula K)}
    (hm : Silent m) (hf : ∀ x, Brings H (f x) R) : Brings H (m >>= f) R :=
  hm.brings.bind fun x => by
    rw [Set.empty_union]
    exact hf x

theorem Brings.map {m : GraphM K D α} {Q : α → Set (Formula K)} {R : β → Set (Formula K)}
    (hm : Brings H m Q) (f : α → β) (hR : ∀ x, R (f x) ⊆ Q x ∪ H) :
    Brings H (do return f (← m)) R := by
  intro g y g' hg h
  obtain ⟨x, _, hx, hy⟩ := exists_of_bind h
  cases hy
  obtain ⟨hages, horderly⟩ := hm g x g' hg hx
  exact ⟨hages, horderly.mono (Set.union_subset (hR x) Set.subset_union_right)⟩

theorem brings_formed {a : Formula K} (ha : a.FormedOf H) :
    Brings H (pure a : GraphM K D (Formula K)) fun a => {a} := by
  intro g x g' hg h
  cases h
  exact ⟨.refl g, hg.insert ha⟩

theorem brings_read (n : NodeId) :
    Brings H (do return .read (← freshLabel) n : GraphM K D (Formula K)) fun a => {a} := by
  intro g a g' hg h
  cases h
  have hkeeps : g.Keeps { g with nextLabel := g.nextLabel + 1 } :=
    .of_arena rfl (Nat.le_refl _) (Nat.le_succ _)
  exact ⟨hkeeps.ages, (hg.keeps hkeeps).insert (Formula.formedOf_read _ n)⟩

theorem brings_share {b : Formula K} (hb : b.FormedOf H) (f : Formula K → α)
    {Q : α → Set (Formula K)} (hQ : ∀ a, Q (f a) ⊆ {a} ∪ H) :
    Brings H (do return f (.share (← freshLabel) b) : GraphM K D α) Q := by
  intro g x g' hg h
  cases h
  have hkeeps : g.Keeps { g with nextLabel := g.nextLabel + 1 } :=
    .of_arena rfl (Nat.le_refl _) (Nat.le_succ _)
  exact ⟨hkeeps.ages, (hg.share hb).mono (Set.union_subset (hQ _) Set.subset_union_right)⟩

end Rules

section Variables

variable {K D : Type} [Zero K] [Add K] [Mul K] [MulAdd K] [Capacity K] [NatCast K] [Calculus K]
  {H : Set (Formula K)} {a : Formula K}

theorem brings_assignFormula (n : NodeId) (ha : a.FormedOf H) :
    Brings H (assignFormula n a : GraphM K D (List NodeId)) fun _ => ∅ := by
  intro g x g' hg h
  obtain ⟨v, g₁, hv, h⟩ := exists_of_bind h
  obtain ⟨_, g₂, hcount, h⟩ := exists_of_bind h
  cases hcount
  have hkeeps := silent_evaluate a.expression g v g₁ hv
  obtain ⟨displaced, hrun⟩ := attach_run n a v g₁.countAssignment
  rw [hrun] at h
  cases h
  refine ⟨hkeeps.ages.trans (ages_attach n a v), ?_⟩
  exact (((hg.keeps hkeeps).keeps (.countAssignment g₁)).attach ha n v).mono (by simp)

theorem newComputed_run {g g₁ : Graph K D} {v : Value K}
    (h : a.expression.evaluate g = some (v, g₁)) :
    newComputed a g = some ((g₁.arena.insert { value := v }).1, { g₁.forget a with
      arena := (g₁.arena.insert { value := v }).2.modify (g₁.arena.insert { value := v }).1
        (Node.attach a v) }) := by
  obtain ⟨displaced, hrun⟩ := attach_run (g₁.arena.insert { value := v }).1 a v
    { g₁ with arena := (g₁.arena.insert { value := v }).2 }
  have hnew : (newVariable v : GraphM K D NodeId) g₁ = some ((g₁.arena.insert { value := v }).1,
      { g₁ with arena := (g₁.arena.insert { value := v }).2 }) := rfl
  rw [newComputed, run_bind, h, Option.bind_some, run_bind, hnew, Option.bind_some, run_bind, hrun]
  rfl

theorem brings_newComputed (ha : a.FormedOf H) :
    Brings H (newComputed a : GraphM K D NodeId) fun _ => ∅ := by
  intro g x g' hg h
  obtain ⟨v, g₁, hv, -⟩ := exists_of_bind h
  rw [newComputed_run hv] at h
  cases h
  have hkeeps := silent_evaluate a.expression g v g₁ hv
  refine ⟨hkeeps.ages.trans (ages_insert _ _ a), ?_⟩
  exact (((hg.keeps hkeeps).keeps (.newVariable g₁ v)).attach ha _ v).mono (by simp)

end Variables

end GradientGraph
