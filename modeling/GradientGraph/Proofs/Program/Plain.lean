import GradientGraph.Proofs.Graph.Visit

/-!
# Passes on derivatives alone

A differentiating pass as a function of the derivatives that the variables hold
when it begins. The pass on the graph leaves what this function says.
-/

set_option autoImplicit false

namespace GradientGraph

namespace Plan

open GradientGraph.Graph

section Visits

variable {K D : Type} {p : Plan} {β : Label → Expression K} {g g' : Graph K D}

def Visitable (p : Plan) (β : Label → Expression K) (g : Graph K D) : Prop :=
  ∀ n ∈ p.order, g.Visitable β n

theorem Visitable.congr (h : p.Visitable β g) (hg : OnlyDerivatives g g') :
    p.Visitable β g' := fun n hn => (h n hn).congr hg

theorem mem_inner {n : NodeId} : n ∈ p.inner ↔ n ∈ p.order ∧ n ∉ p.sources := by
  simp [inner]

theorem mem_outer {n : NodeId} : n ∈ p.outer ↔ n ∈ p.order ∧ n ∈ p.sources := by
  simp [outer]

theorem findSome?_derivative (g : Graph K D) (ns : List NodeId) :
    (ns.findSome? g.derivative?).map (·.value) = ns.findSome? g.differential? := by
  induction ns with
  | nil => rfl
  | cons n ns ih =>
    rw [List.findSome?_cons, List.findSome?_cons, differential?]
    cases g.derivative? n with
    | none => exact ih
    | some d => rfl

def cleared (p : Plan) (targets : NodeSet) (τ : NodeId → Option D) : NodeId → Option D :=
  fun n => if n ∈ p.order ∧ n ∉ targets then none else τ n

theorem clear_run (h : p.Visitable β g) (targets : NodeSet) :
    Option.Rel (Leaves g) (some (p.cleared targets g.differential?))
      ((p.order.filter (· ∉ targets)).forM (clearDerivative : NodeId → GraphM K D Unit) g) := by
  have hplain (ns : List NodeId) (τ : NodeId → Option D) :
      ns.foldlM (fun τ n => some (Function.update τ n none)) τ =
        some fun n => if n ∈ ns then none else τ n := by
    induction ns generalizing τ with
    | nil => simp
    | cons m ns ih =>
      rw [List.foldlM_cons]
      refine (ih _).trans ?_
      congr 1
      funext n
      by_cases hn : n = m <;> simp [hn]
  have hcleared : p.cleared targets g.differential? =
      fun n => if n ∈ p.order.filter (· ∉ targets) then none else g.differential? n := by
    funext n
    simp [cleared]
  rw [hcleared, ← hplain]
  apply loop_run
  intro n hn g' hg'
  exact clearDerivative_run (h.congr hg' n (List.mem_filter.mp hn).1).live

theorem visits_run (h : p.Visitable β g) {ns : List NodeId} (hns : ∀ n ∈ ns, n ∈ p.order)
    {f : NodeId → GraphM K D Unit}
    (step : (NodeId → Option (Value K)) → (NodeId → Option (Formula K)) →
      (NodeId → Option D) → NodeId → Option (NodeId → Option D))
    (hf : ∀ n g', g'.Visitable β n →
      Option.Rel (Leaves g') (step g'.value? g'.formula? g'.differential? n) (f n g')) :
    Option.Rel (Leaves g) (ns.foldlM (step g.value? g.formula?) g.differential?)
      (ns.forM f g) := by
  apply loop_run
  intro n hn g' hg'
  have hrun := hf n g' (h.congr hg' n (hns n hn))
  rw [value?_congr hg'.statics, formula?_congr hg'.statics] at hrun
  exact hrun

end Visits

section Seeds

variable {K D : Type} [Differential K D] {p : Plan} {β : Label → Expression K} {g : Graph K D}

def sourceSeed (ρ : NodeId → Option (Value K)) (s n : NodeId) : Option D :=
  if n = s then Differential.identity (sizeUnder ρ s)
  else Differential.zeros (sizeUnder ρ n) (sizeUnder ρ s)

def targetSeed (ρ : NodeId → Option (Value K)) (t n : NodeId) : Option D :=
  if n = t then Differential.identity (sizeUnder ρ t)
  else Differential.zeros (sizeUnder ρ t) (sizeUnder ρ n)

def widthUnder (p : Plan) (τ : NodeId → Option D) : Nat :=
  ((p.outer.findSome? τ).map fun d => (Differential.dims d).2).getD 1

def heightUnder (p : Plan) (targets : NodeSet) (τ : NodeId → Option D) : Nat :=
  (((p.order.filter (· ∈ targets)).findSome? τ).map fun d => (Differential.dims d).1).getD 1

theorem width_eq (p : Plan) (g : Graph K D) : p.width g = p.widthUnder g.differential? := by
  rw [width, widthUnder, ← findSome?_derivative, Option.map_map]
  rfl

theorem height_eq (p : Plan) (targets : NodeSet) (g : Graph K D) :
    p.height targets g = p.heightUnder targets g.differential? := by
  rw [height, heightUnder, ← findSome?_derivative, Option.map_map]
  rfl

theorem seedSources_run (h : p.Visitable β g) (s : NodeId) :
    Option.Rel (Leaves g) (p.outer.foldlM (giveStep (sourceSeed g.value? s)) g.differential?)
      ((p.seedSources s : GraphM K D Unit) g) := by
  rw [seedSources, run_bind, run_get, Option.bind_some]
  apply loop_run
  intro n hn g' hg'
  have hlive := (h.congr hg' n (mem_outer.mp hn).1).live
  have hgive := giveDerivative_run hlive (sourceSeed (D := D) g.value? s)
  by_cases hs : n = s
  · rw [if_pos hs]
    rw [sourceSeed, if_pos hs] at hgive
    exact hgive
  · rw [if_neg hs, run_bind, run_get, Option.bind_some, sizeAt_congr hg'.statics]
    rw [sourceSeed, if_neg hs] at hgive
    exact hgive

theorem seedTargets_run (h : ∀ n ∈ p.order, g.arena.contains n) (targets : NodeSet) (t : NodeId) :
    Option.Rel (Leaves g)
      ((p.order.filter (· ∈ targets)).foldlM (giveStep (targetSeed g.value? t)) g.differential?)
      ((p.seedTargets targets t : GraphM K D Unit) g) := by
  rw [seedTargets, run_bind, run_get, Option.bind_some]
  apply loop_run
  intro n hn g' hg'
  have hlive : g'.arena.contains n := by
    rw [contains_congr hg'.statics, h n (List.mem_filter.mp hn).1]
  have hgive := giveDerivative_run hlive (targetSeed (D := D) g.value? t)
  by_cases ht : n = t
  · rw [if_pos ht]
    rw [targetSeed, if_pos ht] at hgive
    exact hgive
  · rw [if_neg ht, run_bind, run_get, Option.bind_some, sizeAt_congr hg'.statics]
    rw [targetSeed, if_neg ht] at hgive
    exact hgive

end Seeds

variable {K D : Type} [Zero K] [One K] [Add K] [Mul K] [MulAdd K] [Capacity K] [NatCast K]
  [Calculus K] [Differential K D]

def forwardUnder (p : Plan) (ρ : NodeId → Option (Value K)) (φ : NodeId → Option (Formula K))
    (τ : NodeId → Option D) : Option (NodeId → Option D) :=
  (p.inner.foldlM (pushStep ρ φ) τ).bind fun τ' =>
    p.order.foldlM (fillStep fun n => Differential.zeros (sizeUnder ρ n) (p.widthUnder τ)) τ'

def backwardUnder (p : Plan) (targets : NodeSet) (ρ : NodeId → Option (Value K))
    (φ : NodeId → Option (Formula K)) (τ : NodeId → Option D) : Option (NodeId → Option D) :=
  (p.inner.reverse.foldlM (pullStep ρ φ) (p.cleared targets τ)).bind fun τ' =>
    p.order.foldlM (fillStep fun n =>
      Differential.zeros (p.heightUnder targets (p.cleared targets τ)) (sizeUnder ρ n)) τ'

variable {p : Plan} {β : Label → Expression K} {g : Graph K D}

theorem forward_run (h : p.Visitable β g) :
    Option.Rel (Leaves g) (p.forwardUnder g.value? g.formula? g.differential?)
      ((p.forward : GraphM K D Unit) g) := by
  rw [forward, run_bind, run_get, Option.bind_some, forwardUnder, run_bind]
  apply rel_bind (visits_run h (fun n hn => (mem_inner.mp hn).1) pushStep
    fun n g' => pushForwardNode_run)
  rintro _ ⟨_, g₁⟩ ⟨h₁ : OnlyDerivatives g g₁, rfl⟩
  apply Leaves.after h₁
  rw [← width_eq, ← value?_congr h₁.statics]
  apply visits_run (h.congr h₁) (fun n hn => hn)
    (fun ρ _ => fillStep fun n => Differential.zeros (sizeUnder ρ n) (p.width g))
  intro n g' hn
  rw [run_bind, run_get, Option.bind_some]
  exact fillDerivative_run hn.live rfl

theorem backward_run (h : p.Visitable β g) (targets : NodeSet) :
    Option.Rel (Leaves g) (p.backwardUnder targets g.value? g.formula? g.differential?)
      ((p.backward targets : GraphM K D (List (Seed D))) g) := by
  have hclear := clear_run h targets
  rw [backward, run_bind, run_get, Option.bind_some]
  simp only
  rw [run_bind]
  generalize (p.order.filter (· ∉ targets)).forM
    (clearDerivative : NodeId → GraphM K D Unit) g = x at hclear ⊢
  cases hclear with
  | some hr =>
    rename_i r
    obtain ⟨_, g₁⟩ := r
    obtain ⟨h₁ : OnlyDerivatives g g₁, hτ : g₁.differential? = _⟩ := hr
    apply Leaves.after h₁
    rw [Option.bind_some, run_bind, run_get, Option.bind_some, run_bind, backwardUnder, ← hτ,
      ← value?_congr h₁.statics, ← formula?_congr h₁.statics, ← height_eq]
    apply rel_bind (visits_run (h.congr h₁) (fun n hn => (mem_inner.mp (List.mem_reverse.mp hn)).1)
      pullStep fun n g' => pullBackNode_run)
    rintro _ ⟨_, g₂⟩ ⟨h₂ : OnlyDerivatives g₁ g₂, rfl⟩
    apply Leaves.after h₂
    rw [run_bind, ← value?_congr h₂.statics]
    apply Leaves.returning fun r => _
    apply visits_run (h.congr (h₁.trans h₂)) (fun n hn => hn)
      (fun ρ _ => fillStep fun n =>
        Differential.zeros (p.height targets g₁) (sizeUnder ρ n))
    intro n g' hn
    rw [run_bind, run_get, Option.bind_some]
    exact fillDerivative_run hn.live rfl

end Plan

end GradientGraph
