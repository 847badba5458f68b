import GradientGraph.Proofs.Graph.Making
import GradientGraph.Proofs.Node.Vacant
import GradientGraph.Proofs.Program.Memory

/-!
# What stays remembered

Evaluation and the traversals let the shared parts of an expression remember. Every
operation that starts them on a formula also makes the formula forget, and then no
more is remembered than before. The slots of the arena are kept in order on the way.
-/

set_option autoImplicit false

namespace GradientGraph

open GradientGraph.Graph

section Release

variable {K D : Type}

def Graph.drain (label : Label) (g : Graph K D) : Graph K D :=
  { g with
    values := g.values.filter fun x => x.1 ≠ label
    tangents := g.tangents.filter fun x => x.1 ≠ label }

namespace Expression

def release : Expression K → Graph K D → Graph K D
  | .literal _, g => g
  | .read _ _, g => g
  | .unary _ a, g => a.release g
  | .binary _ l r, g => r.release (l.release g)
  | .shared label e, g => e.release (g.drain label)

theorem release_eq (e : Expression K) (g : Graph K D) :
    e.release g = { g with
      values := g.values.filter fun x => !e.footprint.labels.contains x.1
      tangents := g.tangents.filter fun x => !e.footprint.labels.contains x.1 } := by
  have hall {β : Type} (xs : List (Label × β)) : xs.filter (fun _ => true) = xs :=
    List.filter_eq_self.mpr fun _ _ => rfl
  induction e generalizing g with
  | literal => simp [release, footprint, Footprint.empty, hall]
  | read => simp [release, footprint, Footprint.ofNode, hall]
  | unary _ _ ih => exact ih g
  | binary k l r ihl ihr =>
    rw [release, ihl, ihr]
    simp [footprint, Footprint.join, List.filter_filter, Bool.and_comm]
  | shared label e ih =>
    have hdrain {β : Type} (xs : List (Label × β)) :
        (xs.filter fun x => x.1 ≠ label).filter (fun x => !e.footprint.labels.contains x.1) =
          xs.filter fun x => !(shared label e).footprint.labels.contains x.1 := by
      rw [List.filter_filter]
      apply List.filter_congr
      intro x _
      simp [footprint, Footprint.insert, eq_comm]
    rw [release, ih, drain, hdrain, hdrain]

end Expression

/-- To forget a formula is to empty its parts one by one. -/
theorem Graph.forget_eq_release (a : Formula K) (g : Graph K D) :
    g.forget a = a.expression.release g := by
  rw [Expression.release_eq, forget, Formula.labels, a.footprint_eq]

theorem Graph.forget_part {a : Formula K} {label : Label} {d : Expression K}
    (h : Expression.Part (.shared label d) a.expression) (g : Graph K D) :
    (g.forget a).remembered? label = none ∧ (g.forget a).rememberedTangent? label = none := by
  have hlabel : a.labels.contains label := by
    rw [Formula.labels, a.footprint_eq]
    exact h.hasLabel
  have hnone {β : Type} (xs : List (Label × β)) :
      (xs.filter fun x => !a.labels.contains x.1).lookup label = none := by
    rw [List.lookup_eq_none_iff]
    intro p hp
    have hout := (List.mem_filter.mp hp).2
    by_contra heq
    obtain rfl : label = p.1 := by simpa using heq
    simp [hlabel] at hout
  exact ⟨hnone g.values, hnone g.tangents⟩

end Release

namespace Graph

variable {K D : Type}

/-- Whether all that is remembered is remembered under labels in `P`, and the slots of
the arena are in order. -/
structure Confined (P : Set Label) (g : Graph K D) : Prop where
  packed : g.arena.Packed
  values : ∀ x ∈ g.values, x.1 ∈ P
  tangents : ∀ x ∈ g.tangents, x.1 ∈ P

namespace Confined

variable {P Q : Set Label} {g g' : Graph K D}

theorem mono (h : g.Confined P) (hPQ : P ⊆ Q) : g.Confined Q :=
  ⟨h.packed, fun x hx => hPQ (h.values x hx), fun x hx => hPQ (h.tangents x hx)⟩

theorem start : ({} : Graph K D).Confined P := ⟨Arena.packed_empty, by simp, by simp⟩

theorem blank (h : g.Confined ∅) : g.Blank :=
  ⟨List.eq_nil_iff_forall_not_mem.mpr h.values, List.eq_nil_iff_forall_not_mem.mpr h.tangents⟩

theorem withArena (h : g.Confined P) {a : Arena (Cell K D)} (ha : a.Packed) :
    ({ g with arena := a } : Graph K D).Confined P := ⟨ha, h.values, h.tangents⟩

theorem updateCell (h : g.Confined P) (n : NodeId) (f : Cell K D → Cell K D) :
    (g.updateCell n f).Confined P := h.withArena (h.packed.modify n _)

theorem remember (h : g.Confined P) {label : Label} (hlabel : label ∈ P) (v : Value K) :
    (g.remember label v).Confined P := by
  refine ⟨h.packed, ?_, h.tangents⟩
  intro x hx
  rcases List.mem_cons.mp hx with rfl | hx
  · exact hlabel
  · exact h.values x hx

theorem rememberTangent (h : g.Confined P) {label : Label} (hlabel : label ∈ P)
    (t : Option (Stamped D)) : (g.rememberTangent label t).Confined P := by
  refine ⟨h.packed, h.values, ?_⟩
  intro x hx
  rcases List.mem_cons.mp hx with rfl | hx
  · exact hlabel
  · exact h.tangents x hx

theorem forget (h : g.Confined Q) {a : Formula K}
    (hQ : ∀ l ∈ Q, l ∈ P ∨ a.expression.HasLabel l) : (g.forget a).Confined P := by
  have hkept {β : Type} {xs : List (Label × β)} (hxs : ∀ x ∈ xs, x.1 ∈ Q) :
      ∀ x ∈ xs.filter (fun x => !a.labels.contains x.1), x.1 ∈ P := by
    intro x hx
    obtain ⟨hmem, hout⟩ := List.mem_filter.mp hx
    refine (hQ x.1 (hxs x hmem)).resolve_right fun hlabel => ?_
    rw [hasLabel_iff.mp hlabel] at hout
    cases hout
  exact ⟨h.packed, hkept h.values, hkept h.tangents⟩

theorem forget_self (h : g.Confined P) (a : Formula K) : (g.forget a).Confined P :=
  h.forget fun _ hl => .inl hl

theorem forgot {a : Formula K} (h : g.Confined {l | ¬a.expression.HasLabel l}) : g.Forgot a :=
  ⟨fun x hx hl => h.values x hx (hasLabel_iff.mpr hl),
    fun x hx hl => h.tangents x hx (hasLabel_iff.mpr hl)⟩

theorem all (h : g.Confined Set.univ) (a : Formula K) :
    g.Confined ({l | ¬a.expression.HasLabel l} ∪ {l | a.expression.HasLabel l}) :=
  h.mono fun l _ => (em (a.expression.HasLabel l)).symm

theorem release (h : g.Confined P) (held pending : List NodeId) :
    (g.release held pending).Confined P :=
  release_induction h (fun _ n h _ _ => h.withArena (h.packed.remove n))
    (fun _ h => ⟨h.packed, h.values, h.tangents⟩) pending

end Confined

end Graph

section Rules

variable {K D α β : Type} {P : Set Label}

/-- Whether the computation leaves nothing remembered outside `P`. -/
def Confines (P : Set Label) (m : GraphM K D α) : Prop :=
  ∀ (g : Graph K D) (x : α) (g' : Graph K D), g.Confined P → m g = some (x, g') → g'.Confined P

def Tidy (m : GraphM K D α) : Prop := ∀ P, Confines P m

theorem Confines.bind {m : GraphM K D α} {f : α → GraphM K D β} (hm : Confines P m)
    (hf : ∀ x, Confines P (f x)) : Confines P (m >>= f) := by
  intro g y g'' hg h
  obtain ⟨x, g', hx, hy⟩ := exists_of_bind h
  exact hf x g' y g'' (hm g x g' hg hx) hy

theorem Tidy.bind {m : GraphM K D α} {f : α → GraphM K D β} (hm : Tidy m)
    (hf : ∀ x, Tidy (f x)) : Tidy (m >>= f) := fun P => (hm P).bind fun x => hf x P

/-- A computation on the parts of a formula, after which the formula forgets. -/
theorem confined_forgetting {a : Formula K} {m : GraphM K D α} {f : α → GraphM K D β}
    (hm : ∀ Q, (∀ l, a.expression.HasLabel l → l ∈ Q) → Confines Q m) (hf : ∀ x, Tidy (f x))
    {g g' : Graph K D} {y : β} (hg : g.Confined (P ∪ {l | a.expression.HasLabel l}))
    (h : (m >>= fun x => modify (Graph.forget a) >>= fun _ => f x) g = some (y, g')) :
    g'.Confined P := by
  obtain ⟨x, g₁, hx, h⟩ := exists_of_bind h
  have hg₁ := hm _ (fun l hl => .inr hl) g x g₁ hg hx
  exact hf x P (g₁.forget a) y g' (hg₁.forget fun l hl => hl) h

theorem Tidy.forgetting {a : Formula K} {m : GraphM K D α} {f : α → GraphM K D β}
    (hm : ∀ Q, (∀ l, a.expression.HasLabel l → l ∈ Q) → Confines Q m) (hf : ∀ x, Tidy (f x)) :
    Tidy (m >>= fun x => modify (Graph.forget a) >>= fun _ => f x) :=
  fun _ _ _ _ hg h => confined_forgetting hm hf (hg.mono Set.subset_union_left) h

theorem tidy_pure (x : α) : Tidy (pure x : GraphM K D α) := by
  intro P g y g' hg h
  cases h
  exact hg

theorem tidy_get : Tidy (get : GraphM K D (Graph K D)) := by
  intro P g x g' hg h
  cases h
  exact hg

theorem tidy_modify {f : Graph K D → Graph K D}
    (hf : ∀ (P : Set Label) (g : Graph K D), g.Confined P → (f g).Confined P) :
    Tidy (modify f : GraphM K D Unit) := by
  intro P g x g' hg h
  cases h
  exact hf P g hg

theorem tidy_ofOption (x : Option α) : Tidy (ofOption x : GraphM K D α) := by
  intro P g y g' hg h
  rw [run_ofOption] at h
  obtain ⟨_, -, h⟩ := Option.map_eq_some_iff.mp h
  cases h
  exact hg

theorem tidy_ite {m m' : GraphM K D α} {c : Prop} [Decidable c] (hm : Tidy m) (hm' : Tidy m') :
    Tidy (if c then m else m') := by
  split
  · exact hm
  · exact hm'

theorem tidy_forM {f : α → GraphM K D Unit} (hf : ∀ x, Tidy (f x)) (xs : List α) :
    Tidy (xs.forM f) := by
  induction xs with
  | nil => exact tidy_pure ()
  | cons x xs ih => exact (hf x).bind fun _ => ih

theorem tidy_stamp (d : D) : Tidy (stamp d : GraphM K D (Stamped D)) := by
  intro P g x g' hg h
  cases h
  exact ⟨hg.packed, hg.values, hg.tangents⟩

theorem tidy_freshLabel : Tidy (freshLabel : GraphM K D Label) := by
  intro P g x g' hg h
  cases h
  exact ⟨hg.packed, hg.values, hg.tangents⟩

theorem tidy_cell (n : NodeId) : Tidy (cell n : GraphM K D (Cell K D)) :=
  tidy_get.bind fun _ => tidy_ofOption _

theorem tidy_forget (a : Formula K) : Tidy (modify (Graph.forget a) : GraphM K D Unit) :=
  tidy_modify fun _ _ hg => hg.forget_self a

theorem tidy_setDerivative (n : NodeId) (d : Option (Stamped D)) :
    Tidy (modify (setDerivative n d) : GraphM K D Unit) :=
  tidy_modify fun _ _ hg => hg.updateCell n _

theorem tidy_giveDerivative (n : NodeId) (d : D) : Tidy (giveDerivative n d : GraphM K D Unit) :=
  (tidy_stamp d).bind fun _ => tidy_setDerivative n _

theorem tidy_newVariable (v : Value K) : Tidy (newVariable v : GraphM K D NodeId) := by
  intro P g x g' hg h
  cases h
  exact hg.withArena (hg.packed.insert _)

theorem tidy_assignLiteral (n : NodeId) (v : Value K) :
    Tidy (assignLiteral n v : GraphM K D (List NodeId)) := by
  intro P g x g' hg h
  have hrun := Option.some.inj ((assignLiteral_run n v g).symm.trans h)
  have hset := hg.packed.modify n
  cases hformula : g.formula? n with
  | none =>
    simp only [hformula] at hrun
    cases hrun
    exact ⟨hset _, hg.values, hg.tangents⟩
  | some a =>
    simp only [hformula] at hrun
    cases hrun
    exact ⟨(hset _).modify n _, hg.values, hg.tangents⟩

theorem tidy_accumulate [Differential K D] (n : NodeId) (d : D) :
    Tidy (accumulate n d : GraphM K D Unit) := by
  have hset (d : D) : Tidy (do
      let new ← stamp d
      modify (setDerivative n (some new)) : GraphM K D Unit) := tidy_giveDerivative n d
  refine (tidy_cell n).bind fun c => ?_
  cases c.derivative with
  | none => exact (tidy_pure d).bind hset
  | some old => exact (tidy_ofOption _).bind hset

theorem tidy_carry [Zero K] [Calculus K] [Differential K D]
    (k : BinaryKernel) (x y : Value K) (s t : Option (Stamped D)) :
    Tidy (k.carry x y s t : GraphM K D (Option (Stamped D))) := by
  refine (tidy_ofOption _).bind fun d => ?_
  cases d with
  | none => exact tidy_pure none
  | some d => exact (tidy_stamp d).bind fun _ => tidy_pure _

end Rules

section Traversals

variable {K D : Type} [Zero K] [Add K] [Mul K] [MulAdd K] [Capacity K] [NatCast K] [Calculus K]
  {P : Set Label}

theorem confines_evaluate {e : Expression K} (he : ∀ l, e.HasLabel l → l ∈ P) :
    Confines P (e.evaluate : GraphM K D (Value K)) := by
  induction e with
  | literal v => exact tidy_pure v P
  | read label n => exact (tidy_cell n P).bind fun _ => tidy_pure _ P
  | unary k a ih => exact (ih he).bind fun _ => tidy_pure _ P
  | binary k l r ihl ihr =>
    exact (ihl fun i hi => he i (Expression.hasLabel_left hi)).bind fun _ =>
      (ihr fun i hi => he i (Expression.hasLabel_right hi)).bind fun _ => tidy_ofOption _ P
  | shared label e ih =>
    have hlabel : label ∈ P := he label (Expression.hasLabel_shared.mpr (.inr rfl))
    refine (tidy_get P).bind fun g => ?_
    cases g.remembered? label with
    | some v => exact tidy_pure v P
    | none =>
      refine (ih fun i hi => he i (Expression.hasLabel_body hi)).bind fun v => ?_
      intro g x g' hg h
      cases h
      exact hg.remember hlabel v

theorem tidy_evaluateOnce (a : Formula K) : Tidy (evaluateOnce a : GraphM K D (Value K)) :=
  .forgetting (fun _ hQ => confines_evaluate hQ) fun v => tidy_pure v

section Forgetting

variable {a : Formula K} {g g' : Graph K D} {n : NodeId}

theorem assignFormula_confined {displaced : List NodeId}
    (hg : g.Confined (P ∪ {l | a.expression.HasLabel l}))
    (h : (assignFormula n a : GraphM K D (List NodeId)) g = some (displaced, g')) :
    g'.Confined P := by
  obtain ⟨v, g₁, hv, h⟩ := exists_of_bind h
  obtain ⟨_, g₂, hcount, h⟩ := exists_of_bind h
  cases hcount
  have hg₁ := confines_evaluate (fun l hl => .inr hl) g v g₁ hg hv
  obtain ⟨displaced, hrun⟩ := attach_run n a v g₁.countAssignment
  rw [hrun] at h
  cases h
  have hforgot := hg₁.forget (P := P) (a := a) fun l hl => hl
  exact ⟨hg₁.packed.modify n _, hforgot.values, hforgot.tangents⟩

theorem newComputed_confined (hg : g.Confined (P ∪ {l | a.expression.HasLabel l}))
    (h : (newComputed a : GraphM K D NodeId) g = some (n, g')) : g'.Confined P := by
  obtain ⟨v, g₁, hv, -⟩ := exists_of_bind h
  have hg₁ := confines_evaluate (fun l hl => .inr hl) g v g₁ hg hv
  rw [newComputed_run hv] at h
  cases h
  exact (hg₁.forget fun l hl => hl).withArena ((hg₁.packed.insert _).modify _ _)

theorem evaluateNode_confined (ha : g.formula? n = some a)
    (hg : g.Confined (P ∪ {l | a.expression.HasLabel l})) {u : Unit}
    (h : (evaluateNode n : GraphM K D Unit) g = some (u, g')) : g'.Confined P := by
  obtain ⟨c, hc, hca⟩ := Option.bind_eq_some_iff.mp ha
  rw [evaluateNode, run_bind, run_cell, hc, Option.map_some, Option.bind_some] at h
  simp only [hca] at h
  refine confined_forgetting (fun _ hQ => confines_evaluate hQ) (fun v => ?_) hg h
  exact tidy_modify fun _ _ hg => hg.updateCell n _

end Forgetting

theorem tidy_assignFormula (n : NodeId) (a : Formula K) :
    Tidy (assignFormula n a : GraphM K D (List NodeId)) :=
  fun _ _ _ _ hg h => assignFormula_confined (hg.mono Set.subset_union_left) h

theorem tidy_newComputed (a : Formula K) : Tidy (newComputed a : GraphM K D NodeId) :=
  fun _ _ _ _ hg h => newComputed_confined (hg.mono Set.subset_union_left) h

theorem tidy_evaluateNode (n : NodeId) : Tidy (evaluateNode n : GraphM K D Unit) := by
  refine (tidy_cell n).bind fun c => ?_
  cases c.formula with
  | none => exact tidy_pure ()
  | some a =>
    refine Tidy.forgetting (fun _ hQ => confines_evaluate hQ) fun v => ?_
    exact tidy_modify fun _ _ hg => hg.updateCell n _

variable [One K] [Differential K D]

theorem confines_pushForward {e : Expression K} (he : ∀ l, e.HasLabel l → l ∈ P) :
    Confines P (e.pushForward : GraphM K D (Option (Stamped D))) := by
  induction e with
  | literal v => exact tidy_pure none P
  | read label n => exact (tidy_cell n P).bind fun _ => tidy_pure _ P
  | unary k a ih =>
    refine (ih he).bind fun t => ?_
    cases t with
    | none => exact tidy_pure none P
    | some t =>
      exact (confines_evaluate (e := a) he).bind fun _ => (tidy_ofOption _ P).bind fun _ =>
        (tidy_stamp _ P).bind fun _ => tidy_pure _ P
  | binary k l r ihl ihr =>
    have hl : ∀ i, l.HasLabel i → i ∈ P := fun i hi => he i (Expression.hasLabel_left hi)
    have hr : ∀ i, r.HasLabel i → i ∈ P := fun i hi => he i (Expression.hasLabel_right hi)
    rw [Expression.pushForward_binary]
    refine (ihl hl).bind fun s => (ihr hr).bind fun t => ?_
    split
    · exact tidy_pure none P
    · exact (confines_evaluate hl).bind fun _ => (confines_evaluate hr).bind fun _ =>
        tidy_carry k _ _ s t P
  | shared label e ih =>
    have hlabel : label ∈ P := he label (Expression.hasLabel_shared.mpr (.inr rfl))
    refine (tidy_get P).bind fun g => ?_
    cases g.rememberedTangent? label with
    | some t => exact tidy_pure t P
    | none =>
      refine (ih fun i hi => he i (Expression.hasLabel_body hi)).bind fun t => ?_
      intro g x g' hg h
      cases h
      exact hg.rememberTangent hlabel t

theorem confines_pullSide {e : Expression K}
    (h : ∀ d : D, Confines P (e.pullBack d : GraphM K D Unit)) (j : Option (Jacobian K)) (d : D) :
    Confines P (e.pullSide j d : GraphM K D Unit) := by
  rw [Expression.pullSide]
  split
  · exact tidy_pure () P
  · exact (tidy_ofOption _ P).bind fun _ => (tidy_ofOption _ P).bind h

theorem confines_pullBack {e : Expression K} (he : ∀ l, e.HasLabel l → l ∈ P) (d : D) :
    Confines P (e.pullBack d : GraphM K D Unit) := by
  induction e generalizing d with
  | literal v => exact tidy_pure () P
  | read label n => exact tidy_accumulate n d P
  | unary k a ih =>
    rw [Expression.pullBack_unary]
    split
    · exact tidy_pure () P
    · exact (confines_evaluate (e := a) he).bind fun _ => confines_pullSide (ih he) _ d
  | binary k l r ihl ihr =>
    have hl : ∀ i, l.HasLabel i → i ∈ P := fun i hi => he i (Expression.hasLabel_left hi)
    have hr : ∀ i, r.HasLabel i → i ∈ P := fun i hi => he i (Expression.hasLabel_right hi)
    rw [Expression.pullBack_binary]
    split
    · exact tidy_pure () P
    · refine (confines_evaluate hl).bind fun x => (confines_evaluate hr).bind fun y => ?_
      exact (confines_pullSide (ihl hl) _ d).bind fun _ => confines_pullSide (ihr hr) _ d
  | shared label e ih => exact ih (fun i hi => he i (Expression.hasLabel_body hi)) d

theorem tidy_pushForwardNode (n : NodeId) : Tidy (pushForwardNode n : GraphM K D Unit) := by
  refine (tidy_cell n).bind fun c => ?_
  cases c.formula with
  | none => exact tidy_pure ()
  | some a =>
    exact Tidy.forgetting (fun _ hQ => confines_pushForward hQ) fun t => tidy_setDerivative n t

theorem tidy_pullBackNode (n : NodeId) : Tidy (pullBackNode n : GraphM K D Unit) := by
  refine (tidy_cell n).bind fun c => ?_
  cases c.formula with
  | none => exact tidy_pure ()
  | some a =>
    cases c.derivative with
    | none => exact tidy_pure ()
    | some d =>
      exact Tidy.forgetting (fun _ hQ => confines_pullBack hQ d.value) fun _ => tidy_pure ()

end Traversals

section Seeds

variable {K D : Type} (p : Plan)

theorem Plan.tidy_restoreSeeds (seeds : List (Seed D)) :
    Tidy (modify (p.restoreSeeds seeds) : GraphM K D Unit) := by
  have hone (P : Set Label) (seed : Seed D) (g : Graph K D) (hg : g.Confined P) :
      (p.restoreSeed seed g).Confined P := by
    unfold restoreSeed
    split
    · split
      · split
        · exact hg.updateCell _ _
        · exact hg
      · exact hg
    · exact hg
  refine tidy_modify fun P g hg => ?_
  induction seeds generalizing g with
  | nil => exact hg
  | cons seed seeds ih => exact ih _ (hone P seed g hg)

variable [Differential K D]

theorem tidy_fillDerivative (n : NodeId) (r c : Nat) :
    Tidy (fillDerivative n r c : GraphM K D Unit) := by
  refine tidy_get.bind fun g => ?_
  cases g.derivative? n with
  | none => exact (tidy_ofOption _).bind fun _ => tidy_giveDerivative n _
  | some d => exact tidy_pure ()

theorem Plan.tidy_seedSources (s : NodeId) : Tidy (p.seedSources s : GraphM K D Unit) := by
  refine tidy_get.bind fun _ => tidy_forM (fun n => tidy_ite ?_ ?_) _
  · exact (tidy_ofOption _).bind fun _ => tidy_giveDerivative n _
  · exact tidy_get.bind fun _ => (tidy_ofOption _).bind fun _ => tidy_giveDerivative n _

theorem Plan.tidy_seedTargets (targets : NodeSet) (t : NodeId) :
    Tidy (p.seedTargets targets t : GraphM K D Unit) := by
  refine tidy_get.bind fun _ => tidy_forM (fun n => tidy_ite ?_ ?_) _
  · exact (tidy_ofOption _).bind fun _ => tidy_giveDerivative n _
  · exact tidy_get.bind fun _ => (tidy_ofOption _).bind fun _ => tidy_giveDerivative n _

end Seeds

section Passes

variable {K D : Type} [Zero K] [One K] [Add K] [Mul K] [MulAdd K] [Capacity K] [NatCast K]
  [Calculus K] [Differential K D]

theorem Plan.tidy_forward (p : Plan) : Tidy (p.forward : GraphM K D Unit) :=
  tidy_get.bind fun _ => (tidy_forM tidy_pushForwardNode _).bind fun _ =>
    tidy_forM (fun n => tidy_get.bind fun _ => tidy_fillDerivative n _ _) _

theorem Plan.tidy_backward (p : Plan) (targets : NodeSet) :
    Tidy (p.backward targets : GraphM K D (List (Seed D))) :=
  tidy_get.bind fun _ => (tidy_forM (fun n => tidy_setDerivative n none) _).bind fun _ =>
    tidy_get.bind fun _ => (tidy_forM tidy_pullBackNode _).bind fun _ =>
      (tidy_forM (fun n => tidy_get.bind fun _ => tidy_fillDerivative n _ _) _).bind
        fun _ => tidy_get.bind fun _ => tidy_pure _

namespace Pass

theorem tidy_body (x : Pass) (p : Program D) (plan : Plan) :
    Tidy (x.body p plan : GraphM K D (Program D)) := by
  cases x with
  | evaluate => exact (tidy_forM tidy_evaluateNode _).bind fun _ => tidy_pure p
  | pushTangent => exact plan.tidy_forward.bind fun _ => tidy_pure p
  | pushTangentAt s =>
    exact (plan.tidy_seedSources s).bind fun _ => plan.tidy_forward.bind fun _ => tidy_pure p
  | pullGradient =>
    exact (plan.tidy_restoreSeeds p.seeds).bind fun _ =>
      (plan.tidy_backward p.targets).bind fun _ => tidy_pure _
  | pullGradientAt t =>
    exact (plan.tidy_seedTargets p.targets t).bind fun _ =>
      (plan.tidy_backward p.targets).bind fun _ => tidy_pure _

theorem tidy_run (x : Pass) (p : Program D) :
    Tidy (x.run p : GraphM K D (Program D × Except Error Unit)) := by
  intro P g y g' hg h
  obtain ⟨q, r⟩ := y
  obtain ⟨-, -, rfl⟩ | ⟨p', plan, -, -, -, -, hbody⟩ := Program.run_cases h
  · exact hg
  · exact x.tidy_body p' plan P g q g' hg hbody

end Pass

end Passes

end GradientGraph
