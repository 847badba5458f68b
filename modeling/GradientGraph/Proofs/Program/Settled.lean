import GradientGraph.Proofs.Program.Recycling
import GradientGraph.Proofs.Program.Valuation
import GradientGraph.Proofs.Session.Residue
import GradientGraph.Proofs.Workbench.Residue

/-!
# States between two steps

Between two steps of a host nothing is remembered, and neither is it between two steps
of a workbench as long as no formula is evaluated or traversed by itself. Operations,
assignments and evaluation then have the plain values that they would have if every
occurrence of a shared part were computed for itself.
-/

set_option autoImplicit false

namespace GradientGraph

open GradientGraph.Graph

section States

variable {K D : Type} [Zero K] [One K] [Add K] [Mul K] [MulAdd K] [Capacity K] [NatCast K]
  [Calculus K] [BEq K] [NumberText K] [Differential K D] [HostDerivative K D]

/-- A graph, the formulas held outside it and the programs over it, as they are between
two steps. -/
inductive Standing : Graph K D → Set (Formula K) → List (Program D) → Prop where
  | session {s : Session K D} (h : s.Reachable) :
    Standing s.world.graph s.held s.world.programs.toList
  | workbench {w : Workbench K D} (h : w.Reachable) :
    Standing w.graph w.held (w.programs.map (·.2))

/-- The same where no step evaluated or traversed a formula by itself. -/
inductive Settled : Graph K D → Set (Formula K) → List (Program D) → Prop where
  | session {s : Session K D} (h : s.Reachable) :
    Settled s.world.graph s.held s.world.programs.toList
  | workbench {w : Workbench K D} (h : w.Unprobed) :
    Settled w.graph w.held (w.programs.map (·.2))

/-- Whether a step can be given the formula: it is held, a variable is computed from it,
or it reads a variable. -/
def Graph.Offers (g : Graph K D) (H : Set (Formula K)) (a : Formula K) : Prop :=
  a ∈ H ∨ g.Uses a ∨ ∃ label n, a = .read label n

variable {g g' : Graph K D} {H : Set (Formula K)} {ps : List (Program D)}

theorem Settled.standing (h : Settled g H ps) : Standing g H ps := by
  cases h with
  | session h => exact .session h
  | workbench h => exact .workbench h.reachable

theorem Standing.orderly (h : Standing g H ps) : g.Orderly H := by
  cases h with
  | session h => exact h.orderly.graph
  | workbench h => exact h.orderly.graph.mono Set.subset_union_right

theorem Standing.reached (h : Standing g H ps) : Reached g ps := by
  cases h with
  | session h => exact .session h
  | workbench h => exact .workbench h

theorem Standing.confined (h : Standing g H ps) : g.Confined Set.univ := by
  cases h with
  | session h => exact h.confined.mono (Set.empty_subset _)
  | workbench h => exact h.confined

/-- While the graph is young, 32 bits are enough for the index of every node. -/
theorem Standing.index_lt (h : Standing g H ps) (hg : g.Young) {n : NodeId}
    (hn : g.arena.contains n) : n.index < UInt32.size :=
  Nat.lt_trans (h.confined.packed.index_lt hn) hg.1

theorem Settled.blank (h : Settled g H ps) : g.Blank := by
  cases h with
  | session h => exact h.confined.blank
  | workbench h => exact h.confined.blank

end States

theorem Graph.Orderly.offers {K D : Type} {g : Graph K D} {H : Set (Formula K)}
    (h : g.Orderly H) {a : Formula K} (ha : g.Offers H a) : ∃ β, a.expression.NamedBy β := by
  obtain ⟨β, hβ⟩ := h.named
  rcases ha with ha | ha | ⟨label, n, rfl⟩
  · exact ⟨β, (hβ a (.inl ha)).named⟩
  · exact ⟨β, (hβ a (.inr ha)).named⟩
  · exact ⟨β, trivial⟩

namespace Doubling

open Workbench

variable {K D : Type} [Zero K] [One K] [Add K] [Mul K] [MulAdd K] [Capacity K] [NatCast K]
  [Calculus K] [NumberText K] [Differential K D] [HostDerivative K D] (op : BinOp) (x : K)

theorem unprobed_operations : (operations op x : Workbench K D).Unprobed :=
  (Unprobed.start.step _ id (step_literal x)).step _ id (step_operation op x)

theorem unprobed : (programs op x (.compiled Twice.plan) : Workbench K D).Unprobed := by
  have hvariable := (unprobed_operations (D := D) op x).step _ id (step_variable op x)
  have hprogram : (programs op x .absent : Workbench K D).Unprobed :=
    hvariable.step (.program ["y"] [] "f") id rfl
  exact hprogram.step _ id (step_compile op x)

end Doubling

section Results

variable {K D : Type} [Zero K] [One K] [Add K] [Mul K] [MulAdd K] [Capacity K] [NatCast K]
  [Calculus K] [BEq K] [NumberText K] [Differential K D] [HostDerivative K D]
  {g g' : Graph K D} {H : Set (Formula K)} {ps : List (Program D)}

/-- Between two steps no shared part remembers a value or a tangent. To forget a formula
is to empty its parts one by one, and empties each, those below an empty one as well.
An operation, a new variable and a variable that is given a formula have the plain value
of the formula under the values before the step, and no other variable changes. -/
theorem Settled.plain_values (h : Settled g H ps) :
    (∀ label, g.remembered? label = none ∧ g.rememberedTangent? label = none) ∧
    (∀ (a : Formula K) (g₀ : Graph K D), g₀.forget a = a.expression.release g₀ ∧
      ∀ label d, Expression.Part (.shared label d) a.expression →
        (g₀.forget a).remembered? label = none ∧
          (g₀.forget a).rememberedTangent? label = none) ∧
    ∀ a, g.Offers H a →
      evaluateOnce a g = (a.expression.valueUnder g.value?).map (·, g) ∧
      Option.Rel (fun v r => g.value? r.1 = none ∧
          r.2.value? = Function.update g.value? r.1 (some v))
        (a.expression.valueUnder g.value?) (newComputed a g) ∧
      ∀ n, g.arena.contains n →
        Option.Rel (fun v r => r.2.value? = Function.update g.value? n (some v) ∧
            ∀ held, ∀ m ∈ held, (r.2.release held r.1).value? m = r.2.value? m)
          (a.expression.valueUnder g.value?) (assignFormula n a g) := by
  have hblank := h.blank
  refine ⟨fun label => ?_, fun a g₀ => ?_, fun a ha => ?_⟩
  · rw [remembered?, rememberedTangent?, hblank.1, hblank.2]
    exact ⟨rfl, rfl⟩
  · exact ⟨forget_eq_release a g₀, fun label d hd => forget_part hd g₀⟩
  · obtain ⟨β, hβ⟩ := h.standing.orderly.offers ha
    have hf := hblank.forgot a
    have hfinds := finds_plain hβ hf
    refine ⟨evaluateOnce_run hβ hf, hfinds.newComputed h.standing.confined.packed, ?_⟩
    intro n hn
    exact rel_imp (hfinds.assignFormula hn) fun _ _ _ hr =>
      ⟨hr, fun held m hm => value?_release hm _ _⟩

theorem Settled.plain_values_doubling :
    let w : Workbench Float Float := Doubling.operations .add 3
    Settled w.graph w.held [] ∧ w.graph.Offers w.held (Doubling.formula .add) ∧
      (∀ label, w.graph.remembered? label = none) ∧
      ∃ r, newComputed (Doubling.formula .add) w.graph = some r ∧
        r.2.value? r.1 = some (Twice.doubled .add (.scalar 3)) := by
  intro w
  have h : Settled w.graph w.held [] :=
    .workbench (Doubling.unprobed_operations (D := Float) .add 3)
  have ha : w.graph.Offers w.held (Doubling.formula .add) :=
    .inl ⟨("e", _), List.mem_cons_of_mem _ (List.mem_singleton_self _), rfl⟩
  obtain ⟨hempty, -, hplain⟩ := Settled.plain_values h
  obtain ⟨-, hnew, -⟩ := hplain _ ha
  have hvalue : (Doubling.formula .add).expression.valueUnder w.graph.value? =
      some (Twice.doubled .add (.scalar 3)) := Twice.eval_doubled .add (.scalar 3)
  obtain ⟨r, hr, -, hvalues⟩ := rel_left hnew hvalue
  exact ⟨h, ha, fun label => (hempty label).1, r, hr, by rw [hvalues, Function.update_self]⟩

/-- Evaluation that succeeds changes nothing but the values of the nodes that the plan
computes. Unless generations or versions have come round since the plan was made, which
takes a graph that is no longer young, it leaves the one valuation in which each of these
holds the value of its formula and the sources hold what they held; it would have left
the same from any other values of the nodes computed; and if it is repeated at once it
changes nothing. -/
theorem Program.evaluate_unique (h : Settled g H ps) {p q : Program D}
    (hrun : p.evaluate g = some ((q, .ok ()), g')) :
    (p ∈ ps → g.Young → p.Recent g) ∧
    ∃ plan, q.plan? = some plan ∧ g'.frame = g.frame ∧
      (∀ n ∉ plan.inner, g'.value? n = g.value? n) ∧
      (p.Recent g →
        plan.Consistent g'.formula? g'.value? ∧
        (∀ ρ, plan.Consistent g'.formula? ρ → (∀ s ∈ plan.outer, ρ s = g'.value? s) →
          ∀ n ∈ plan.order, ρ n = g'.value? n) ∧
        (∀ k : Graph K D, k.Blank → k.skeleton = g.skeleton →
          (∀ s ∈ plan.outer, k.value? s = g.value? s) →
          ∃ k', p.evaluate k = some ((q, .ok ()), k') ∧
            ∀ n ∈ plan.order, k'.value? n = g'.value? n) ∧
        q.evaluate g' = some ((q, .ok ()), g')) := by
  refine ⟨fun hp hg => (h.standing.reached.remembers hp).recent hg, ?_⟩
  have hsound := h.standing.orderly.sound
  obtain ⟨β, hβ⟩ := hsound.named
  have hvisitable (k : Graph K D) (hk : k.Blank) (hs : k.skeleton = g.skeleton) {n : NodeId}
      (hn : k.arena.contains n) : k.Visitable β n := by
    rw [← formula?_of_skeleton hs] at hβ
    exact visitable_of hβ hn fun a _ => hk.forgot a
  obtain ⟨plan, hplan, hlive, hnodes, hcurrent⟩ := Program.evaluate_ok hrun
  have hinner : ∀ n ∈ plan.inner, g.Visitable β n :=
    fun n hn => hvisitable g h.blank rfl (hlive n (Plan.mem_inner.mp hn).1)
  obtain ⟨_, hplain, hvalues, rfl⟩ := rel_right (evaluateNodes_run hinner) hnodes
  refine ⟨plan, hplan, hvalues.frame, fun n hn => Plan.evaluateUnder_other hplain hn, ?_⟩
  intro hrecent
  have hcurrent := hcurrent hrecent
  obtain ⟨rfl, -, -, -, hconsistent, hagain⟩ := hcurrent.evaluate_consistent hsound hinner hrun
  -- the formulas are those from before, so the plan's order speaks of them as well
  have hbefore := hconsistent
  rw [formula?_of_frame hvalues.frame] at hbefore
  refine ⟨hconsistent, ?_, ?_, hagain⟩
  · intro ρ hρ hsources
    rw [formula?_of_frame hvalues.frame] at hρ
    exact hρ.unique (Plan.ordered_of_current hcurrent hsound) hbefore hsources
  · intro k hk hs hsources
    refine hcurrent.evaluate_from (β := β) hsound hs ?_ hbefore ?_
    · intro n hn
      exact hvisitable k hk hs
        ((hcurrent.congr hs).describes.live n (Plan.mem_inner.mp hn).1)
    · intro s hmem
      rw [hsources s hmem]
      exact (Plan.evaluateUnder_other hplain (Plan.outer_disjoint_inner hmem)).symm

theorem Program.evaluate_unique_doubling :
    let g : Graph Float Float := (Doubling.computed .add 3).graph
    let p : Program Float := { Twice.program with state := .compiled Twice.plan }
    (∃ H, Settled g H [p]) ∧ p.Recent g ∧ ∃ g', p.evaluate g = some ((p, .ok ()), g') ∧
      g'.frame = g.frame ∧ Twice.plan.Consistent g'.formula? g'.value? ∧
      p.evaluate g' = some ((p, .ok ()), g') := by
  intro g p
  have h : Settled g _ [p] := .workbench (Doubling.unprobed (D := Float) .add 3)
  have hrun : p.evaluate g = some ((p, .ok ()), _) := rfl
  obtain ⟨hrecent, plan, hplan, hframe, -, hunique⟩ := Program.evaluate_unique h hrun
  have hrecent := hrecent (List.mem_singleton_self p) ⟨by decide, by decide⟩
  obtain ⟨hconsistent, -, -, hagain⟩ := hunique hrecent
  obtain rfl : Twice.plan = plan := Option.some.inj hplan
  exact ⟨⟨_, h⟩, hrecent, _, hrun, hframe, hconsistent, hagain⟩

/-- The sources alone do not tell what evaluation leaves. A plan that is taken for fresh
because generations have come round reads a variable that it does not know, here one that
holds 5 or 7. And a plan does not tell the formulas of its nodes, which may combine the
same source in different ways. -/
theorem Program.evaluate_undetermined :
    let p : Program Float := { Twice.program with state := .compiled Twice.plan }
    let old (z : Float) : Graph Float Float :=
      (Recycling.wrapped (.scalar 3) (.scalar z) none none 0).graph
    let young (op : BinOp) : Graph Float Float := (Doubling.computed op 3).graph
    let number (g : Graph Float Float) (n : NodeId) : Option Float := (g.value? n).map (·.entry 0)
    (∃ g g', (∃ H, Settled (old 5) H [p]) ∧ (∃ H, Settled (old 7) H [p]) ∧
      (∀ s ∈ Twice.plan.outer, (old 5).value? s = (old 7).value? s) ∧
      p.evaluate (old 5) = some ((p, .ok ()), g) ∧ p.evaluate (old 7) = some ((p, .ok ()), g') ∧
      number g Twice.target = some 5 ∧ number g' Twice.target = some 7) ∧
    ∃ g g', (∃ H, Settled (young .add) H [p]) ∧ (∃ H, Settled (young .mul) H [p]) ∧
      (∀ s ∈ Twice.plan.outer, (young .add).value? s = (young .mul).value? s) ∧
      p.evaluate (young .add) = some ((p, .ok ()), g) ∧
      p.evaluate (young .mul) = some ((p, .ok ()), g') ∧
      number g Twice.target = some 6 ∧ number g' Twice.target = some 9 := by
  intro p old young number
  have hold (z : Float) : Settled (old z) _ [p] :=
    .workbench (Recycling.unprobed_wrapped (D := Float) (.scalar 3) (.scalar z))
  have hyoung (op : BinOp) : Settled (young op) _ [p] :=
    .workbench (Doubling.unprobed (D := Float) op 3)
  have hvalue {g : Graph Float Float} (h : g.value? Twice.source = some (.scalar 3)) :
      ∀ s ∈ Twice.plan.outer, g.value? s = some (.scalar 3) := by
    intro s hs
    rwa [List.mem_singleton.mp (show s ∈ [Twice.source] from hs)]
  have hruns (op : BinOp) : ∃ g, p.evaluate (young op) = some ((p, .ok ()), g) ∧
      g.value? Twice.target = some (Twice.doubled op (.scalar 3)) := ⟨_, rfl, rfl⟩
  obtain ⟨g, hg, hadd⟩ := hruns .add
  obtain ⟨g', hg', hmul⟩ := hruns .mul
  refine ⟨⟨_, _, ⟨_, hold 5⟩, ⟨_, hold 7⟩, ?_, rfl, rfl, rfl, rfl⟩,
    ⟨g, g', ⟨_, hyoung .add⟩, ⟨_, hyoung .mul⟩, ?_, hg, hg', ?_, ?_⟩⟩
  · exact fun s hs => (hvalue (g := old 5) rfl s hs).trans (hvalue (g := old 7) rfl s hs).symm
  · exact fun s hs =>
      (hvalue (g := young .add) rfl s hs).trans (hvalue (g := young .mul) rfl s hs).symm
  · simp only [number, hadd]
    decide +kernel
  · simp only [number, hmul]
    decide +kernel

end Results

end GradientGraph
