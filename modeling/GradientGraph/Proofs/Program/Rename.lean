import GradientGraph.Proofs.Graph.Rename
import GradientGraph.Proofs.Plan.Reach
import GradientGraph.Proofs.Program.History

/-!
# Passes under other stamps

A pass reads and writes at the nodes of its plan only, if the plan is the one that the
graph gives rise to. On graphs that resemble each other there, a pass of one program does
to both the same, up to the names of stamps, and its program remembers the same seeds.
-/

set_option autoImplicit false

namespace GradientGraph

open GradientGraph.Graph

section Renaming

variable {D : Type}

def Seed.rename (f : Nat → Nat) (s : Seed D) : Seed D :=
  { s with before := s.before.rename f, after := s.after.map (·.rename f) }

def Program.rename (f : Nat → Nat) (p : Program D) : Program D :=
  { p with seeds := p.seeds.map (·.rename f) }

variable {f k : Nat → Nat}

theorem Seed.rename_congr {s : Seed D} (h : ∀ i ∈ s.stamps, f i = k i) :
    s.rename f = s.rename k := by
  have hafter : s.after.map (·.rename f) = s.after.map (·.rename k) := by
    cases hs : s.after with
    | none => rfl
    | some d => exact congrArg some (Stamped.rename_congr (h d.stamp (.inr ⟨d, hs, rfl⟩)))
  rw [rename, rename, Stamped.rename_congr (h s.before.stamp (.inl rfl)), hafter]

theorem Program.rename_congr {p : Program D} (h : ∀ i ∈ seedStamps p.seeds, f i = k i) :
    p.rename f = p.rename k := by
  rw [rename, rename]
  congr 1
  exact List.map_congr_left fun s hs => Seed.rename_congr fun i hi => h i ⟨s, hs, hi⟩

theorem Program.rename_rename (f k : Nat → Nat) (p : Program D) :
    (p.rename f).rename k = p.rename (k ∘ f) := by
  simp only [rename, Seed.rename, List.map_map, Program.mk.injEq, true_and]
  refine List.map_congr_left fun s _ => ?_
  simp only [Function.comp_apply, Option.map_map, Stamped.rename_rename]
  rfl

theorem Program.rename_id (p : Program D) : p.rename id = p := by
  have hseed (s : Seed D) : s.rename id = s := by
    rw [Seed.rename]
    exact congrArg (fun d => ({ s with after := d } : Seed D)) (Option.map_id' ..)
  rw [rename, funext hseed]
  exact congrArg (fun seeds => ({ p with seeds } : Program D)) (List.map_id' ..)

theorem Program.rename_eq {p : Program D} (h : ∀ i ∈ seedStamps p.seeds, f i = i) :
    p.rename f = p := (rename_congr h).trans p.rename_id

end Renaming

namespace Plan

def nodes (p : Plan) : Set NodeId := {n | n ∈ p.order}

def computed (p : Plan) : Set NodeId := {n | n ∈ p.inner}

variable {K D : Type} {p : Plan} {f : Nat → Nat} {g h g' h' : Graph K D} {n : NodeId}

theorem Ordered.reads_within (ho : p.Ordered g.formula?) : g.Reads p.computed p.nodes :=
  fun _ hn _ ha _ hc => ho.reads_order hn ha hc

section Seeds

variable (hf : f.Injective)
include hf

theorem follows_restoreSeed (hg : g.Resembles f p.nodes h) (s : Seed D) :
    Together f p.nodes g h (p.restoreSeed s g) (p.restoreSeed (s.rename f) h) := by
  obtain ⟨m, before, after⟩ := s
  change Together f p.nodes g h (p.restoreSeed ⟨m, before, after⟩ g)
    (p.restoreSeed ⟨m, before.rename f, after.map (·.rename f)⟩ h)
  unfold restoreSeed
  by_cases hm : m ∈ p.order
  · rw [if_pos hm, if_pos hm, hg.derivative? hm]
    cases g.derivative? m with
    | none => exact .refl hg
    | some now =>
      cases after with
      | none => exact .refl hg
      | some after =>
        -- stamps are the same exactly if their names are
        by_cases hsame : now.stamp = after.stamp
        · simp only [Option.map_some, Stamped.rename, hsame, if_true]
          exact hg.setDerivative hm (some before)
        · have hnames : f now.stamp ≠ f after.stamp := fun heq => hsame (hf heq)
          simp only [Option.map_some, Stamped.rename, hsame, hnames, if_false]
          exact .refl hg
  · rw [if_neg hm, if_neg hm]
    exact .refl hg

theorem follows_restoreSeeds (seeds : List (Seed D)) :
    Follows f p.computed p.nodes Eq (modify (p.restoreSeeds seeds) : GraphM K D Unit)
      (modify (p.restoreSeeds (seeds.map (·.rename f)))) := by
  refine follows_modify fun g h hg => ?_
  induction seeds generalizing g h with
  | nil => exact .refl hg
  | cons s seeds ih =>
    have hfirst := follows_restoreSeed hf hg s
    exact hfirst.trans (ih _ _ hfirst.resembles)

end Seeds

theorem resembles_started (hg : g.Resembles f p.nodes h) (targets : NodeSet) :
    ((p.order.filter (· ∈ targets)).filterMap fun n => (h.derivative? n).map (n, ·)) =
      ((p.order.filter (· ∈ targets)).filterMap fun n => (g.derivative? n).map (n, ·)).map
        fun x => (x.1, x.2.rename f) := by
  rw [List.map_filterMap]
  refine List.filterMap_congr fun n hn => ?_
  rw [hg.derivative? (List.mem_filter.mp hn).1, Option.map_map, Option.map_map]
  rfl

variable [Differential K D]

theorem width_resembles (hg : g.Resembles f p.nodes h) : p.width h = p.width g := by
  have hagree : AgreeOn p.outer h.differential? g.differential? :=
    fun n hn => hg.differential? (mem_outer.mp hn).1
  rw [width_eq, width_eq, widthUnder, hagree.findSome?, widthUnder]

theorem height_resembles (hg : g.Resembles f p.nodes h) (targets : NodeSet) :
    p.height targets h = p.height targets g := by
  have hagree : AgreeOn (p.order.filter (· ∈ targets)) h.differential? g.differential? :=
    fun n hn => hg.differential? (List.mem_filter.mp hn).1
  rw [height_eq, height_eq, heightUnder, hagree.findSome?, heightUnder]

theorem follows_seedSources (hn : n ∈ p.order) :
    Follows f p.computed p.nodes Eq (p.seedSources n : GraphM K D Unit) (p.seedSources n) := by
  refine follows_get fun g h hg => ?_
  rw [hg.sizeAt hn]
  refine follows_forM fun m hm => ?_
  have hm : m ∈ p.nodes := (mem_outer.mp hm).1
  refine follows_ite (follows_giveComputed hm _) (follows_get fun g' h' hg' => ?_)
  rw [hg'.sizeAt hm]
  exact follows_giveComputed hm _

theorem follows_seedTargets (targets : NodeSet) (hn : n ∈ p.order) :
    Follows f p.computed p.nodes Eq (p.seedTargets targets n : GraphM K D Unit)
      (p.seedTargets targets n) := by
  refine follows_get fun g h hg => ?_
  rw [hg.sizeAt hn]
  refine follows_forM fun m hm => ?_
  have hm : m ∈ p.nodes := (List.mem_filter.mp hm).1
  refine follows_ite (follows_giveComputed hm _) (follows_get fun g' h' hg' => ?_)
  rw [hg'.sizeAt hm]
  exact follows_giveComputed hm _

variable [Zero K] [One K] [Add K] [Mul K] [MulAdd K] [Capacity K] [NatCast K] [Calculus K]

theorem follows_forward :
    Follows f p.computed p.nodes Eq (p.forward : GraphM K D Unit) p.forward := by
  refine follows_get fun g h hg => ?_
  rw [width_resembles hg]
  refine (follows_forM fun m hm => follows_pushForwardNode (mem_inner.mp hm).1 hm).next fun _ => ?_
  refine follows_forM fun m hm => follows_get fun g' h' hg' => ?_
  rw [hg'.sizeAt hm]
  exact follows_fillDerivative hm _ _

theorem follows_backward (targets : NodeSet) :
    Follows f p.computed p.nodes (fun s t => t = s.map (·.rename f))
      (p.backward targets : GraphM K D (List (Seed D))) (p.backward targets) := by
  refine follows_get fun g h hg => ?_
  have hclear : Follows f p.computed p.nodes Eq
      ((p.order.filter (· ∉ targets)).forM clearDerivative : GraphM K D Unit)
      ((p.order.filter (· ∉ targets)).forM clearDerivative) :=
    follows_forM fun m hm => follows_clearDerivative (List.mem_filter.mp hm).1
  refine hclear.next fun _ => follows_get fun g₁ h₁ hg₁ => ?_
  rw [height_resembles hg₁]
  have hpull : Follows f p.computed p.nodes Eq
      (p.inner.reverse.forM pullBackNode : GraphM K D Unit) (p.inner.reverse.forM pullBackNode) :=
    follows_forM fun m hm =>
      have hm := List.mem_reverse.mp hm
      follows_pullBackNode (mem_inner.mp hm).1 hm
  refine hpull.next fun _ => ?_
  refine (follows_forM fun m hm => follows_get fun g₂ h₂ hg₂ => ?_).next fun _ =>
    follows_get fun g₃ h₃ hg₃ => follows_pure ?_
  · rw [hg₂.sizeAt hm]
    exact follows_fillDerivative hm _ _
  · rw [resembles_started hg, List.map_map, List.map_map]
    refine List.map_congr_left fun x hx => ?_
    obtain ⟨n, hn, hx⟩ := List.mem_filterMap.mp hx
    obtain ⟨d, -, rfl⟩ := Option.map_eq_some_iff.mp hx
    simp only [Function.comp_apply, Seed.rename, Seed.mk.injEq, true_and]
    exact hg₃.derivative? (List.mem_filter.mp hn).1

end Plan

namespace Pass

variable {K D : Type} [Zero K] [One K] [Add K] [Mul K] [MulAdd K] [Capacity K] [NatCast K]
  [Calculus K] [Differential K D] {f : Nat → Nat} {p : Program D} {g : Graph K D} {plan : Plan}

theorem follows_body (hf : f.Injective) (hp : p.Current g plan) {x : Pass}
    (hcheck : x.check p plan = .ok ()) :
    Follows f plan.computed plan.nodes (fun q r => r = q.rename f)
      (x.body p plan : GraphM K D (Program D)) (x.body (p.rename f) plan) := by
  have hsame : Follows f plan.computed plan.nodes (fun q r => r = q.rename f)
      (pure p : GraphM K D (Program D)) (pure (p.rename f)) := follows_pure rfl
  have hbackward : Follows f plan.computed plan.nodes (fun q r => r = q.rename f)
      (do let seeds ← plan.backward p.targets
          return { p with seeds } : GraphM K D (Program D))
      (do let seeds ← plan.backward p.targets
          return { p with seeds }) := by
    refine (Plan.follows_backward p.targets).bind ?_
    rintro seeds _ rfl
    exact follows_pure rfl
  cases x with
  | evaluate =>
    have hevaluate : Follows f plan.computed plan.nodes Eq (plan.evaluate : GraphM K D Unit)
        plan.evaluate :=
      follows_forM fun m hm => follows_evaluateNode (Plan.mem_inner.mp hm).1 hm
    exact hevaluate.next fun _ => hsame
  | pushTangent => exact Plan.follows_forward.next fun _ => hsame
  | pushTangentAt s =>
    have hs := (hp.sources_iff.mp (mem_sources_of_check hcheck)).1
    exact (Plan.follows_seedSources hs).next fun _ => Plan.follows_forward.next fun _ => hsame
  | pullGradient => exact (Plan.follows_restoreSeeds hf p.seeds).next fun _ => hbackward
  | pullGradientAt t =>
    have ht := ((Plan.build_orders hp.build).members t).mpr
      (.target (mem_targets_of_check hcheck))
    exact (Plan.follows_seedTargets p.targets ht).next fun _ => hbackward

end Pass

end GradientGraph
