import GradientGraph.Proofs.Derivative.Pass

/-!
# Working off a plan

A pass that recomputes nodes in the order of a plan gives each of them what a rule finds,
from what the nodes hold that its formula reads. What the sources hold then settles all the
rest: working off the plan leaves the one family that the rule leaves as it is, and there is
none exactly if the pass meets something that does not fit.
-/

set_option autoImplicit false

namespace GradientGraph

namespace Plan

variable {K X : Type}

def workStep (F : NodeId → (NodeId → X) → Option X) (σ : NodeId → X) (n : NodeId) :
    Option (NodeId → X) := (F n σ).map (Function.update σ n)

/-- Whether the rule looks, for a node with a formula, at what the formula reads only. -/
def Local (φ : NodeId → Option (Formula K)) (F : NodeId → (NodeId → X) → Option X) : Prop :=
  ∀ n a, φ n = some a → ∀ σ τ, (∀ c ∈ a.expression.reads, σ c = τ c) → F n σ = F n τ

/-- Whether every node that is worked off holds what the rule finds for it. -/
def Solves (p : Plan) (F : NodeId → (NodeId → X) → Option X) (σ : NodeId → X) : Prop :=
  ∀ n ∈ p.inner, F n σ = some (σ n)

variable {p : Plan} {φ : NodeId → Option (Formula K)} {F : NodeId → (NodeId → X) → Option X}
  {ρ σ τ : NodeId → X} {n : NodeId}

theorem work_other (h : p.inner.foldlM (workStep F) ρ = some σ) {m : NodeId}
    (hm : m ∉ p.inner) : σ m = ρ m := by
  refine foldlM_same (· m) h fun n hn σ τ hτ => ?_
  obtain ⟨x, -, rfl⟩ := Option.map_eq_some_iff.mp hτ
  refine Function.update_of_ne ?_ x σ
  rintro rfl
  exact hm hn

theorem Solves.work (h : p.Solves F σ) : p.inner.foldlM (workStep F) σ = some σ := by
  unfold Solves at h
  generalize p.inner = ns at h
  induction ns with
  | nil => rfl
  | cons n ns ih =>
    rw [List.foldlM_cons, workStep, h n (List.mem_cons_self ..), Option.map_some,
      Function.update_eq_self]
    exact ih fun m hm => h m (List.mem_cons_of_mem n hm)

section Ordered

variable (ho : p.Ordered φ)
include ho

theorem Ordered.not_reads_self (hn : n ∈ p.inner) {a : Formula K} (ha : φ n = some a) :
    n ∉ a.expression.reads := by
  obtain ⟨done, rest, hsplit⟩ := List.append_of_mem hn
  exact ho.not_reads_later hsplit ha (List.mem_cons_self ..)

variable (hF : Local φ F)
include hF

theorem Local.congr (hn : n ∈ p.inner) (h : ∀ m ∈ p.order, σ m = τ m) : F n σ = F n τ := by
  obtain ⟨a, ha⟩ := ho.computed n hn
  exact hF n a ha σ τ fun c hc => h c (ho.reads_order hn ha hc)

theorem Solves.congr (hσ : p.Solves F σ) (h : ∀ m ∈ p.order, τ m = σ m) : p.Solves F τ := by
  intro n hn
  rw [hF.congr ho hn h, hσ n hn, h n (mem_order_iff.mpr (.inr hn))]

theorem workStep_settles {done rest : List NodeId} (hsplit : p.inner = done ++ n :: rest)
    (hdone : ∀ m ∈ done, F m σ = some (σ m)) (h : workStep F σ n = some τ) :
    ∀ m ∈ done ++ [n], F m τ = some (τ m) := by
  obtain ⟨x, hx, rfl⟩ := Option.map_eq_some_iff.mp h
  have hsame {m : NodeId} {b : Formula K} (hb : φ m = some b) (hread : n ∉ b.expression.reads) :
      F m (Function.update σ n x) = F m σ := by
    refine hF m b hb _ _ fun c hc => Function.update_of_ne ?_ ..
    rintro rfl
    exact hread hc
  intro m hmem
  rcases List.mem_append.mp hmem with hm | hm
  · obtain ⟨b, hb⟩ := ho.computed m (by simp [hsplit, hm])
    have hne : m ≠ n := by
      rintro rfl
      have hnodup := ho.nodup_inner
      rw [hsplit] at hnodup
      exact (List.nodup_append.mp hnodup).2.2 m hm m (List.mem_cons_self ..) rfl
    rw [hsame hb (ho.not_read_by_earlier hsplit hm hb), hdone m hm, Function.update_of_ne hne]
  · obtain rfl := List.mem_singleton.mp hm
    obtain ⟨b, hb⟩ := ho.computed m (by simp [hsplit])
    rw [hsame hb (ho.not_reads_later hsplit hb (List.mem_cons_self ..)), hx,
      Function.update_self]

theorem solves_of_work (h : p.inner.foldlM (workStep F) ρ = some σ) : p.Solves F σ := by
  -- the nodes worked off so far are settled, and no later one is read by them
  have hloop (rest done : List NodeId) (ρ : NodeId → X) (hsplit : p.inner = done ++ rest)
      (hdone : ∀ m ∈ done, F m ρ = some (ρ m)) (h : rest.foldlM (workStep F) ρ = some σ) :
      p.Solves F σ := by
    induction rest generalizing done ρ with
    | nil =>
      cases h
      rw [Solves, hsplit, List.append_nil]
      exact hdone
    | cons n rest ih =>
      rw [List.foldlM_cons] at h
      obtain ⟨ρ₁, hstep, h⟩ := Option.bind_eq_some_iff.mp h
      exact ih (done ++ [n]) ρ₁ (by simpa using hsplit)
        (workStep_settles ho hF hsplit hdone hstep) h
  exact hloop p.inner [] ρ rfl (by simp) h

/-- From what the sources hold the work finds every solution in which they hold it. -/
theorem Solves.found (hσ : p.Solves F σ) (hsources : ∀ s ∈ p.outer, ρ s = σ s) :
    ∃ τ, p.inner.foldlM (workStep F) ρ = some τ ∧ ∀ n ∈ p.order, τ n = σ n := by
  -- the sources and the nodes worked off so far agree with `σ`, and a step reads no others
  obtain ⟨τ, hτ, -, hall⟩ := foldlM_invariant (f := workStep F)
    (fun done rest τ => p.inner = done ++ rest ∧ ∀ n, n ∈ p.outer ∨ n ∈ done → τ n = σ n)
    (by
      rintro done n rest τ ⟨hsplit, h⟩
      have hn : n ∈ p.inner := by simp [hsplit]
      obtain ⟨a, ha⟩ := ho.computed n hn
      have hfind : F n τ = some (σ n) := by
        rw [← hσ n hn]
        exact hF n a ha τ σ fun c hc => h c (ho.reads done n rest hsplit a ha c hc)
      refine ⟨_, by rw [workStep, hfind, Option.map_some], by simpa using hsplit, ?_⟩
      intro m hm
      by_cases hmn : m = n
      · subst hmn
        exact Function.update_self ..
      · rw [Function.update_of_ne hmn]
        exact h m (hm.imp_right fun hd => by simpa [hmn] using hd))
    [] p.inner ⟨rfl, fun s hs => hsources s (hs.resolve_right List.not_mem_nil)⟩
  refine ⟨τ, hτ, fun n hn => hall n ?_⟩
  simpa using mem_order_iff.mp hn

theorem Solves.unique (hσ : p.Solves F σ) (hτ : p.Solves F τ)
    (hsources : ∀ s ∈ p.outer, σ s = τ s) : ∀ n ∈ p.order, σ n = τ n := by
  obtain ⟨υ, hυ, hall⟩ := hτ.found ho hF hsources
  obtain rfl : σ = υ := Option.some.inj (hσ.work.symm.trans hυ)
  exact hall

theorem Solves.again {q : Plan} (hσ : p.Solves F σ) (hτ : q.Solves F τ)
    (hsources : ∀ s ∈ p.outer, s ∉ q.inner) (hother : ∀ n, n ∉ q.inner → τ n = σ n) :
    ∀ n ∈ p.order, τ n = σ n := by
  have houter : ∀ n ∈ p.outer, τ n = σ n := fun n hn => hother n (hsources n hn)
  -- along the order, since a node reads sources and nodes before it
  have hinner (done rest : List NodeId) (hsplit : p.inner = done ++ rest) :
      ∀ n ∈ done, τ n = σ n := by
    induction done using List.reverseRecOn generalizing rest with
    | nil => exact fun n hn => absurd hn List.not_mem_nil
    | append_singleton done m ih =>
      rw [List.append_assoc, List.singleton_append] at hsplit
      have hdone := ih (m :: rest) hsplit
      intro n hn
      rcases List.mem_append.mp hn with hn | hn
      · exact hdone n hn
      · obtain rfl := List.mem_singleton.mp hn
        by_cases hq : n ∈ q.inner
        · have hn : n ∈ p.inner := by simp [hsplit]
          obtain ⟨a, ha⟩ := ho.computed n hn
          have hreads : F n τ = F n σ := hF n a ha τ σ fun c hc =>
            (ho.reads done n rest hsplit a ha c hc).elim (houter c) (hdone c)
          exact Option.some.inj ((hτ n hq).symm.trans (hreads.trans (hσ n hn)))
        · exact hother n hq
  intro n hn
  rcases mem_order_iff.mp hn with hn | hn
  · exact houter n hn
  · exact hinner p.inner [] (List.append_nil _).symm n hn

section Two

variable {q : Plan} (hq : q.Ordered φ) (houter : ∀ s ∈ p.outer, s ∉ q.inner)
  (houter' : ∀ s ∈ q.outer, s ∉ p.inner)

include houter in
/-- Two plans are solved once one was worked off after the other. -/
theorem solves_both (hq : q.Ordered φ) (hσ : p.inner.foldlM (workStep F) ρ = some σ)
    (hτ : q.inner.foldlM (workStep F) σ = some τ) :
    p.Solves F τ ∧ q.Solves F τ ∧ ∀ n, n ∉ p.inner → n ∉ q.inner → τ n = ρ n := by
  have hsolves := solves_of_work ho hF hσ
  have hsolves' := solves_of_work hq hF hτ
  have hsame := hsolves.again ho hF hsolves' houter fun n hn => work_other hτ hn
  exact ⟨hsolves.congr ho hF hsame, hsolves',
    fun n hp hq => (work_other hτ hq).trans (work_other hσ hp)⟩

include hq houter houter' in
theorem Solves.unique_both (hσ : p.Solves F σ) (hσ' : q.Solves F σ) (hτ : p.Solves F τ)
    (hτ' : q.Solves F τ) (hrest : ∀ n, n ∉ p.inner → n ∉ q.inner → σ n = τ n) : σ = τ := by
  funext n
  by_cases hp : n ∈ p.inner
  · exact hσ.unique ho hF hτ (fun s hs => hrest s (outer_disjoint_inner hs) (houter s hs)) n
      (mem_order_iff.mpr (.inr hp))
  · by_cases hn : n ∈ q.inner
    · exact hσ'.unique hq hF hτ'
        (fun s hs => hrest s (houter' s hs) (outer_disjoint_inner hs)) n
        (mem_order_iff.mpr (.inr hn))
    · exact hrest n hp hn

end Two

end Ordered

end Plan

end GradientGraph
