import GradientGraph.Proofs.Graph.Touch

/-!
# What passes leave of the seeds

A reverse pass records what each target started and ended with, and the next one starts
from the former wherever the latter still stands. A derivative is known by its stamp, and
stamps are given out once. Evaluation touches no derivative at all.
-/

set_option autoImplicit false

namespace GradientGraph

open GradientGraph.Graph

def Seed.resume {D : Type} (s : Seed D) (n : NodeId) (d : Option (Stamped D)) :
    Option (Stamped D) :=
  match d, s.after with
  | some now, some after => if s.node = n ∧ now.stamp = after.stamp then some s.before else d
  | _, _ => d

/-- What a node is put back to, one seed after the other. -/
def resumed {D : Type} (seeds : List (Seed D)) (n : NodeId) (d : Option (Stamped D)) :
    Option (Stamped D) :=
  seeds.foldl (fun d s => s.resume n d) d

def Seed.stamps {D : Type} (s : Seed D) : Set Nat := {s.before.stamp} ∪ stampsOf s.after

def seedStamps {D : Type} (seeds : List (Seed D)) : Set Nat := {i | ∃ s ∈ seeds, i ∈ s.stamps}

theorem Graph.contains_of_derivative {K D : Type} {g : Graph K D} {n : NodeId}
    (h : (g.derivative? n).isSome) : g.arena.contains n := by
  obtain ⟨d, hd⟩ := Option.isSome_iff_exists.mp h
  obtain ⟨c, hc, -⟩ := Option.bind_eq_some_iff.mp hd
  obtain ⟨x, hx, -⟩ := Option.map_eq_some_iff.mp hc
  exact Arena.contains_iff.mpr ⟨x, hx⟩

section Resuming

variable {D : Type} {s : Seed D} {seeds : List (Seed D)} {n : NodeId} {d : Option (Stamped D)}

theorem Seed.resume_ne (h : s.node ≠ n) : s.resume n d = d := by
  unfold resume
  split
  · exact if_neg fun hsame => h hsame.1
  · rfl

theorem resumed_of_not_mem (h : n ∉ seeds.map (·.node)) : resumed seeds n d = d := by
  induction seeds with
  | nil => rfl
  | cons s seeds ih =>
    rw [List.map_cons, List.mem_cons, not_or] at h
    rw [resumed, List.foldl_cons, Seed.resume_ne (Ne.symm h.1)]
    exact ih h.2

theorem resumed_of_mem (hnodup : (seeds.map (·.node)).Nodup) (hs : s ∈ seeds) :
    resumed seeds s.node d = s.resume s.node d := by
  induction seeds with
  | nil => cases hs
  | cons r seeds ih =>
    rw [List.map_cons, List.nodup_cons] at hnodup
    rw [resumed, List.foldl_cons]
    rcases List.mem_cons.mp hs with rfl | hs
    · exact resumed_of_not_mem hnodup.1
    · have hne : r.node ≠ s.node := fun heq => hnodup.1 (heq ▸ List.mem_map_of_mem hs)
      rw [Seed.resume_ne hne]
      exact ih hnodup.2 hs

theorem resumed_of_fresh {now : Stamped D} (h : now.stamp ∉ seedStamps seeds) :
    resumed seeds n (some now) = some now := by
  induction seeds with
  | nil => rfl
  | cons s seeds ih =>
    have hs : s.resume n (some now) = some now := by
      unfold Seed.resume
      split
      · rename_i _ after heq hafter
        cases heq
        refine if_neg fun hsame => h ⟨s, List.mem_cons_self .., .inr ⟨after, hafter, hsame.2.symm⟩⟩
      · rfl
    rw [resumed, List.foldl_cons, hs]
    exact ih fun ⟨r, hr, hi⟩ => h ⟨r, List.mem_cons_of_mem s hr, hi⟩

theorem isSome_resumed (seeds : List (Seed D)) (n : NodeId) (d : Option (Stamped D)) :
    (resumed seeds n d).isSome = d.isSome := by
  induction seeds generalizing d with
  | nil => rfl
  | cons s seeds ih =>
    have hs : (s.resume n d).isSome = d.isSome := by
      unfold Seed.resume
      split
      · split <;> rfl
      · rfl
    exact (ih _).trans hs

end Resuming

namespace Plan

variable {K D : Type} {plan : Plan} {g : Graph K D} {n : NodeId}

theorem derivative?_restoreSeed_ne {s : Seed D} (hn : n ≠ s.node) :
    (plan.restoreSeed s g).derivative? n = g.derivative? n := by
  unfold restoreSeed
  split
  · split
    · split
      · exact derivative?_setDerivative_ne g hn _
      · rfl
    · rfl
  · rfl

theorem derivative?_restoreSeed (hn : n ∈ plan.order) (s : Seed D) :
    (plan.restoreSeed s g).derivative? n = s.resume n (g.derivative? n) := by
  by_cases hs : s.node = n
  · subst hs
    unfold restoreSeed Seed.resume
    rw [if_pos hn]
    cases hnow : g.derivative? s.node with
    | none => exact hnow
    | some now =>
      have hlive : g.arena.contains s.node := contains_of_derivative (by rw [hnow]; rfl)
      cases s.after with
      | none => exact hnow
      | some after =>
        simp only [true_and]
        split
        · rw [derivative?_setDerivative hlive, if_pos rfl]
        · exact hnow
  · rw [derivative?_restoreSeed_ne (Ne.symm hs), Seed.resume_ne hs]

theorem derivative?_restoreSeeds (hn : n ∈ plan.order) (seeds : List (Seed D)) :
    (plan.restoreSeeds seeds g).derivative? n = resumed seeds n (g.derivative? n) := by
  induction seeds generalizing g with
  | nil => rfl
  | cons s seeds ih =>
    rw [resumed, List.foldl_cons, ← derivative?_restoreSeed hn]
    exact ih

theorem derivative?_restoreSeeds_outside (hn : n ∉ plan.order) (seeds : List (Seed D)) :
    (plan.restoreSeeds seeds g).derivative? n = g.derivative? n := by
  have hone (s : Seed D) (g : Graph K D) :
      (plan.restoreSeed s g).derivative? n = g.derivative? n := by
    by_cases hs : n = s.node
    · rw [restoreSeed, if_neg (hs ▸ hn)]
    · exact derivative?_restoreSeed_ne hs
  induction seeds generalizing g with
  | nil => rfl
  | cons s seeds ih => exact (ih).trans (hone s g)

/-- What a reverse pass from the derivatives of `g` to those of `g'` remembers. -/
def record (p : Plan) (targets : NodeSet) (g g' : Graph K D) : List (Seed D) :=
  (p.order.filter (· ∈ targets)).filterMap fun n =>
    (g.derivative? n).map fun before => ⟨n, before, g'.derivative? n⟩

theorem record_stamps {p : Plan} {targets : NodeSet} {g g' : Graph K D} :
    seedStamps (p.record targets g g') ⊆ g.stamps ∪ g'.stamps := by
  rintro i ⟨s, hs, hi⟩
  obtain ⟨n, -, hn⟩ := List.mem_filterMap.mp hs
  obtain ⟨before, hbefore, rfl⟩ := Option.map_eq_some_iff.mp hn
  rcases hi with rfl | hi
  · exact .inl (.inl ⟨n, before, hbefore, rfl⟩)
  · exact .inr (.inl ⟨n, hi⟩)

theorem record_nodes (p : Plan) (targets : NodeSet) (g g' : Graph K D) :
    (p.record targets g g').map (·.node) =
      (p.order.filter (· ∈ targets)).filter fun n => (g.derivative? n).isSome := by
  unfold record
  induction p.order.filter (· ∈ targets) with
  | nil => rfl
  | cons n ns ih =>
    cases hn : g.derivative? n with
    | none =>
      rw [List.filterMap_cons_none (by rw [hn]; rfl), ih, List.filter_cons_of_neg (by simp [hn])]
    | some d =>
      rw [List.filterMap_cons_some (by rw [hn]; rfl), List.map_cons, ih,
        List.filter_cons_of_pos (by simp [hn])]

/-- From where a pass ends, a target is put back to the derivative that it held when the
pass began, and stays as it is if it held none. -/
theorem resumed_record {p : Plan} {targets : NodeSet} {g g' : Graph K D} (hnodup : p.order.Nodup)
    (hn : n ∈ p.order) (ht : n ∈ targets) (hend : (g'.derivative? n).isSome) :
    resumed (p.record targets g g') n (g'.derivative? n) =
      (g.derivative? n).or (g'.derivative? n) := by
  have hnodes := record_nodes p targets g g'
  obtain ⟨now, hnow⟩ := Option.isSome_iff_exists.mp hend
  cases hstart : g.derivative? n with
  | none =>
    refine resumed_of_not_mem ?_
    rw [hnodes, List.mem_filter, hstart]
    exact fun h => by cases h.2
  | some before =>
    have hmem : (⟨n, before, g'.derivative? n⟩ : Seed D) ∈ p.record targets g g' :=
      List.mem_filterMap.mpr ⟨n, List.mem_filter.mpr ⟨hn, by simpa using ht⟩, by rw [hstart]; rfl⟩
    have hseeds : ((p.record targets g g').map (·.node)).Nodup := by
      rw [hnodes]
      exact (hnodup.filter _).filter _
    rw [resumed_of_mem hseeds hmem, hnow]
    exact if_pos ⟨rfl, rfl⟩

end Plan

theorem Program.seeds_of_create {D : Type} {targets sources : List NodeId} {p : Program D}
    (h : create targets sources = .ok p) : p.seeds = [] := by
  unfold create at h
  split at h
  · cases h
  · cases h
    rfl

theorem Program.compile_seeds {K D : Type} (p : Program D) (g : Graph K D) :
    (p.compile g).1.seeds = p.seeds ∧ (p.compile g).1.targets = p.targets ∧
      (p.compile g).1.sources = p.sources := by
  unfold compile
  split <;> exact ⟨rfl, rfl, rfl⟩

theorem Program.ready_seeds {K D : Type} (p : Program D) (g : Graph K D) :
    (p.ready g).1.seeds = p.seeds ∧ (p.ready g).1.targets = p.targets ∧
      (p.ready g).1.sources = p.sources := by
  cases hp : p.plan? with
  | some plan =>
    rw [ready_of_plan hp, consult_fst]
    exact ⟨rfl, rfl, rfl⟩
  | none =>
    rw [ready_of_none hp, consult_fst]
    exact p.compile_seeds g

theorem Program.run_program {K D : Type} [Zero K] [One K] [Add K] [Mul K] [MulAdd K] [Capacity K]
    [NatCast K] [Calculus K] [Differential K D] {p q : Program D} {g g' : Graph K D} {x : Pass}
    {r : Except Error Unit} (h : x.run p g = some ((q, r), g')) :
    q.state = (p.ready g).1.state ∧ q.targets = p.targets ∧ q.sources = p.sources ∧
      (¬x.Reverse ∨ r.isOk = false → q.seeds = p.seeds) := by
  obtain ⟨hseeds, htargets, hsources⟩ := p.ready_seeds g
  rcases run_cases h with ⟨-, rfl, -⟩ | ⟨p', plan, rfl, hready, -, -, hbody⟩
  · exact ⟨rfl, htargets, hsources, fun _ => hseeds⟩
  · rw [hready] at hseeds htargets hsources ⊢
    obtain ⟨seeds, rfl⟩ := Pass.body_seeds hbody
    refine ⟨rfl, htargets, hsources, fun hx => ?_⟩
    rw [Pass.body_of_not_reverse (hx.resolve_right nofun) hbody]
    exact hseeds

section Loops

variable {K D : Type} {S : Set Nat}

theorem Plan.works_restoreSeeds (plan : Plan) {seeds : List (Seed D)} (h : seedStamps seeds ⊆ S) :
    Labours S Set.univ (modify (plan.restoreSeeds seeds) : GraphM K D Unit) := by
  have hone {s : Seed D} (hs : s ∈ seeds) (g : Graph K D) (hg : g.Dated S) :
      g.Touches Set.univ (plan.restoreSeed s g) ∧ (plan.restoreSeed s g).Dated S := by
    have hbefore : stampsOf (some s.before) ⊆ S := by
      rw [stampsOf_some]
      exact fun i hi => h ⟨s, hs, .inl hi⟩
    unfold restoreSeed
    split
    · split
      · split
        · exact ⟨.setDerivative (Set.mem_univ _) _ g, hg.setDerivative _ hbefore⟩
        · exact ⟨.refl _ g, hg⟩
      · exact ⟨.refl _ g, hg⟩
    · exact ⟨.refl _ g, hg⟩
  apply works_modify
  intro g hg
  induction seeds generalizing g with
  | nil => exact ⟨.refl _ g, hg⟩
  | cons s seeds ih =>
    obtain ⟨htouches, hg'⟩ := hone (List.mem_cons_self ..) g hg
    obtain ⟨htouches', hg''⟩ := ih
      (fun i ⟨r, hr, hi⟩ => h ⟨r, List.mem_cons_of_mem s hr, hi⟩)
      (fun hr => hone (List.mem_cons_of_mem s hr)) _ hg'
    exact ⟨htouches.trans htouches', hg''⟩

variable [Differential K D]

theorem Plan.works_seedSources (p : Plan) (s : NodeId) :
    Labours S Set.univ (p.seedSources s : GraphM K D Unit) := by
  refine works_get fun _ => works_forM fun n _ => ?_
  refine works_ite (works_giveComputed (Set.mem_univ n) _) (works_get fun _ => ?_)
  exact works_giveComputed (Set.mem_univ n) _

theorem Plan.works_seedTargets (p : Plan) (targets : NodeSet) (t : NodeId) :
    Labours S Set.univ (p.seedTargets targets t : GraphM K D Unit) := by
  refine works_get fun _ => works_forM fun n _ => ?_
  refine works_ite (works_giveComputed (Set.mem_univ n) _) (works_get fun _ => ?_)
  exact works_giveComputed (Set.mem_univ n) _

theorem isSome_fillDerivative {n m : NodeId} {r c : Nat} {u : Unit} {g g' : Graph K D}
    (h : (fillDerivative n r c : GraphM K D Unit) g = some (u, g'))
    (hm : m = n ∧ g.arena.contains n ∨ (g.derivative? m).isSome) :
    (g'.derivative? m).isSome := by
  rw [fillDerivative, run_bind, run_get, Option.bind_some] at h
  cases hd : g.derivative? n with
  | some d =>
    rw [hd] at h
    cases h
    rcases hm with ⟨rfl, -⟩ | hm
    · rw [hd]
      rfl
    · exact hm
  | none =>
    simp only [hd] at h
    rw [run_ofOption_bind] at h
    obtain ⟨z, -, h⟩ := Option.bind_eq_some_iff.mp h
    cases h
    rcases hm with ⟨rfl, hn⟩ | hm
    · rw [derivative?_setDerivative (g := { g with nextStamp := g.nextStamp + 1 }) hn, if_pos rfl]
      rfl
    · have hne : m ≠ n := by
        rintro rfl
        rw [hd] at hm
        cases hm
      rw [derivative?_setDerivative_ne _ hne]
      exact hm

theorem Plan.works_fill (height : Nat) (ns : List NodeId) :
    Labours S Set.univ (ns.forM fun n => do fillDerivative n height ((← get).sizeAt n) :
      GraphM K D Unit) :=
  works_forM fun n _ => works_get fun _ => works_fillDerivative (Set.mem_univ n) _ _

theorem Plan.isSome_fill {height : Nat} {ns : List NodeId} {u : Unit} {g g' : Graph K D}
    (hg : g.Dated S) (h : (ns.forM fun n => do fillDerivative n height ((← get).sizeAt n) :
      GraphM K D Unit) g = some (u, g')) {m : NodeId}
    (hm : m ∈ ns ∧ g.arena.contains m ∨ (g.derivative? m).isSome) :
    (g'.derivative? m).isSome := by
  induction ns generalizing g with
  | nil =>
    cases h
    exact hm.resolve_left fun hm => List.not_mem_nil hm.1
  | cons n ns ih =>
    obtain ⟨_, g₁, hn, h⟩ := exists_of_bind h
    change (fillDerivative n height (g.sizeAt n) : GraphM K D Unit) g = _ at hn
    obtain ⟨htouches, hg₁⟩ := works_fillDerivative (Set.mem_univ n) _ _ g _ g₁ hg hn
    refine ih (hg₁.mono Set.subset_union_right) h ?_
    rcases hm with ⟨hmem, hlive⟩ | hsome
    · rcases List.mem_cons.mp hmem with rfl | hmem
      · exact .inr (isSome_fillDerivative hn (.inl ⟨rfl, hlive⟩))
      · exact .inl ⟨hmem, contains_of_skeleton htouches.skeleton hlive⟩
    · exact .inr (isSome_fillDerivative hn (.inr hsome))

variable [Zero K] [One K] [Add K] [Mul K] [MulAdd K] [Capacity K] [NatCast K] [Calculus K]

namespace Plan

theorem works_forward (p : Plan) : Labours S Set.univ (p.forward : GraphM K D Unit) :=
  works_get fun _ =>
    (works_forM fun n _ => works_pushForwardNode (Set.mem_univ n)).before fun _ =>
      works_forM fun n _ => works_get fun _ => works_fillDerivative (Set.mem_univ n) _ _

theorem backward_record {p : Plan} {targets : NodeSet} {seeds : List (Seed D)} {g g' : Graph K D}
    (hg : g.Dated S) (h : (p.backward targets : GraphM K D (List (Seed D))) g = some (seeds, g')) :
    g.Touches Set.univ g' ∧ g'.Dated S ∧ seeds = p.record targets g g' ∧
      ∀ n ∈ p.order, g.arena.contains n → (g'.derivative? n).isSome := by
  obtain ⟨_, _, hget, h⟩ := exists_of_bind h
  cases hget
  obtain ⟨_, g₁, hclear, h⟩ := exists_of_bind h
  obtain ⟨_, _, hget, h⟩ := exists_of_bind h
  cases hget
  obtain ⟨_, g₂, hpull, h⟩ := exists_of_bind h
  obtain ⟨_, g₃, hfill, h⟩ := exists_of_bind h
  obtain ⟨rfl, rfl⟩ := Prod.mk.inj (Option.some.inj h)
  have hclears : Labours S Set.univ
      ((p.order.filter (· ∉ targets)).forM clearDerivative : GraphM K D Unit) :=
    works_forM fun n _ => works_clearDerivative (Set.mem_univ n)
  have hpulls : Labours S Set.univ (p.inner.reverse.forM pullBackNode : GraphM K D Unit) :=
    works_forM fun n _ => works_pullBackNode n
  obtain ⟨h₁, hg₁⟩ := hclears g _ g₁ hg hclear
  obtain ⟨h₂, hg₂⟩ := hpulls g₁ _ g₂ (hg₁.mono Set.subset_union_right) hpull
  have hg₂ := hg₂.mono Set.subset_union_right
  obtain ⟨h₃, hg₃⟩ := works_fill _ _ g₂ _ g₃ hg₂ hfill
  refine ⟨(h₁.trans h₂).trans h₃, hg₃.mono Set.subset_union_right, ?_, fun n hn hlive => ?_⟩
  · rw [record, List.map_filterMap]
    simp only [Option.map_map, Function.comp_def]
  · have hskeleton := h₂.skeleton.trans h₁.skeleton
    exact isSome_fill hg₂ hfill (.inl ⟨hn, contains_of_skeleton hskeleton hlive⟩)

theorem works_backward (p : Plan) (targets : NodeSet) :
    Works S Set.univ (p.backward targets : GraphM K D (List (Seed D))) seedStamps := by
  intro g seeds g' hg h
  obtain ⟨htouches, hg', rfl, -⟩ := backward_record hg h
  refine ⟨htouches, ?_⟩
  have hold : g'.Dated g.stamps := (backward_record hg.all h).2.1.mono Set.subset_union_left
  exact ((hold.union ⟨hg'.own, hg'.own⟩).mono record_stamps).union hg'

end Plan

def Pass.touched : Pass → Set NodeId
  | .evaluate => ∅
  | _ => Set.univ

namespace Pass

theorem works_body (x : Pass) {p : Program D} (hp : seedStamps p.seeds ⊆ S) (plan : Plan) :
    Works S x.touched (x.body p plan : GraphM K D (Program D)) fun q => seedStamps q.seeds := by
  have hsame {T : Set NodeId} : Works S T (pure p : GraphM K D (Program D))
      fun q => seedStamps q.seeds := works_pure hp
  have hbackward {S : Set Nat} : Works S Set.univ (do
      let seeds ← plan.backward p.targets
      return { p with seeds } : GraphM K D (Program D)) fun q => seedStamps q.seeds :=
    (plan.works_backward p.targets).bind fun _ => works_pure Set.subset_union_left
  cases x with
  | evaluate =>
    have hevaluate : Labours S ∅ (plan.evaluate : GraphM K D Unit) :=
      works_forM fun n _ => works_evaluateNode n
    exact hevaluate.before fun _ => hsame
  | pushTangent => exact plan.works_forward.before fun _ => hsame
  | pushTangentAt s =>
    exact (plan.works_seedSources s).before fun _ => plan.works_forward.before fun _ => hsame
  | pullGradient => exact (plan.works_restoreSeeds hp).before fun _ => hbackward
  | pullGradientAt t => exact (plan.works_seedTargets p.targets t).before fun _ => hbackward

end Pass

end Loops

end GradientGraph
