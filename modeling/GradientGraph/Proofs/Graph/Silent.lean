import GradientGraph.Proofs.Graph.Upkeep

/-!
# Computations that give no formula

Evaluation, the traversals and all passes of a program touch values, derivatives and
what is remembered. None of them gives a variable a formula.
-/

set_option autoImplicit false

namespace GradientGraph

open GradientGraph.Graph

section Rules

variable {K D α β : Type}

def Silent (m : GraphM K D α) : Prop :=
  ∀ (g : Graph K D) (x : α) (g' : Graph K D), m g = some (x, g') → g.Keeps g'

theorem silent_pure (x : α) : Silent (pure x : GraphM K D α) := by
  intro g y g' h
  cases h
  exact .refl g

theorem exists_of_bind {σ : Type} {m : StateT σ Option α} {f : α → StateT σ Option β} {s s'' : σ}
    {y : β} (h : (m >>= f) s = some (y, s'')) :
    ∃ x s', m s = some (x, s') ∧ f x s' = some (y, s'') := by
  obtain ⟨⟨x, s'⟩, hx, hy⟩ := Option.bind_eq_some_iff.mp h
  exact ⟨x, s', hx, hy⟩

theorem Silent.bind {m : GraphM K D α} {f : α → GraphM K D β} (hm : Silent m)
    (hf : ∀ x, Silent (f x)) : Silent (m >>= f) := by
  intro g y g'' h
  obtain ⟨x, g', hx, hy⟩ := exists_of_bind h
  exact (hm g x g' hx).trans (hf x g' y g'' hy)

theorem silent_get : Silent (get : GraphM K D (Graph K D)) := by
  intro g x g' h
  cases h
  exact .refl g

theorem silent_modify {f : Graph K D → Graph K D} (hf : ∀ g : Graph K D, g.Keeps (f g)) :
    Silent (modify f : GraphM K D Unit) := by
  intro g x g' h
  cases h
  exact hf g

theorem silent_fault : Silent (fault : GraphM K D α) := by
  intro g x g' h
  cases h

theorem silent_ofOption (x : Option α) : Silent (ofOption x : GraphM K D α) := by
  cases x with
  | none => exact silent_fault
  | some x => exact silent_pure x

theorem silent_ite {m m' : GraphM K D α} {c : Prop} [Decidable c] (hm : Silent m)
    (hm' : Silent m') : Silent (if c then m else m') := by
  split
  · exact hm
  · exact hm'

theorem silent_forM {f : α → GraphM K D Unit} (hf : ∀ x, Silent (f x)) (xs : List α) :
    Silent (xs.forM f) := by
  induction xs with
  | nil => exact silent_pure ()
  | cons x xs ih => exact (hf x).bind fun _ => ih

theorem silent_stamp (d : D) : Silent (stamp d : GraphM K D (Stamped D)) := by
  intro g x g' h
  cases h
  exact .of_arena rfl (Nat.le_refl _) (Nat.le_refl _)

theorem silent_freshLabel : Silent (freshLabel : GraphM K D Label) := by
  intro g x g' h
  cases h
  exact .of_arena rfl (Nat.le_refl _) (Nat.le_succ _)

theorem silent_cell (n : NodeId) : Silent (cell n : GraphM K D (Cell K D)) :=
  silent_get.bind fun _ => silent_ofOption _

theorem silent_forget (a : Formula K) : Silent (modify (Graph.forget a) : GraphM K D Unit) :=
  silent_modify fun g => .forget g a

theorem silent_giveDerivative (n : NodeId) (d : D) :
    Silent (giveDerivative n d : GraphM K D Unit) :=
  (silent_stamp d).bind fun _ => silent_modify fun g => .setDerivative g n _

theorem silent_clearDerivative (n : NodeId) : Silent (clearDerivative n : GraphM K D Unit) :=
  silent_modify fun g => .setDerivative g n none

theorem silent_newVariable (v : Value K) : Silent (newVariable v : GraphM K D NodeId) := by
  intro g x g' h
  cases h
  exact .newVariable g v

theorem silent_assignLiteral (n : NodeId) (v : Value K) :
    Silent (assignLiteral n v : GraphM K D (List NodeId)) := by
  intro g x g' h
  have hrun := Option.some.inj ((assignLiteral_run n v g).symm.trans h)
  cases hformula : g.formula? n with
  | none =>
    simp only [hformula] at hrun
    cases hrun
    refine (Keeps.countAssignment g).trans (.updateCell _ n ?_)
    intro y hy
    rw [formula?, Arena.content?, show g.arena.node? n = some y from hy] at hformula
    exact hformula.symm
  | some a =>
    simp only [hformula] at hrun
    cases hrun
    have hkeeps := Keeps.dropFormula g n (f := fun c => { c with value := v, formula := none })
      fun _ => rfl
    exact hkeeps

theorem silent_accumulate [Differential K D] (n : NodeId) (d : D) :
    Silent (accumulate n d : GraphM K D Unit) := by
  have hset (d : D) : Silent (do
      let new ← stamp d
      modify (setDerivative n (some new)) : GraphM K D Unit) := silent_giveDerivative n d
  refine (silent_cell n).bind fun c => ?_
  cases c.derivative with
  | none => exact (silent_pure d).bind hset
  | some old => exact (silent_ofOption _).bind hset

theorem silent_carry [Zero K] [Calculus K] [Differential K D]
    (k : BinaryKernel) (x y : Value K) (s t : Option (Stamped D)) :
    Silent (k.carry x y s t : GraphM K D (Option (Stamped D))) := by
  refine (silent_ofOption _).bind fun d => ?_
  cases d with
  | none => exact silent_pure none
  | some d => exact (silent_stamp d).bind fun _ => silent_pure _

end Rules

section Traversals

variable {K D : Type} [Zero K] [Add K] [Mul K] [MulAdd K] [Capacity K] [NatCast K] [Calculus K]

theorem silent_evaluate (e : Expression K) : Silent (e.evaluate : GraphM K D (Value K)) := by
  induction e with
  | literal v => exact silent_pure v
  | read label n => exact (silent_cell n).bind fun _ => silent_pure _
  | unary k a ih => exact ih.bind fun _ => silent_pure _
  | binary k l r ihl ihr => exact ihl.bind fun _ => ihr.bind fun _ => silent_ofOption _
  | shared label e ih =>
    refine silent_get.bind fun g => ?_
    cases g.remembered? label with
    | some v => exact silent_pure v
    | none =>
      refine ih.bind fun v => (silent_modify ?_).bind fun _ => silent_pure v
      intro g
      exact .of_arena rfl (Nat.le_refl _) (Nat.le_refl _)

theorem silent_evaluateOnce (a : Formula K) :
    Silent (evaluateOnce a : GraphM K D (Value K)) :=
  (silent_evaluate _).bind fun _ => (silent_forget a).bind fun _ => silent_pure _

theorem silent_evaluateNode (n : NodeId) : Silent (evaluateNode n : GraphM K D Unit) := by
  refine (silent_cell n).bind fun c => ?_
  cases c.formula with
  | none => exact silent_pure ()
  | some a =>
    refine (silent_evaluate _).bind fun v => (silent_forget a).bind fun _ => ?_
    exact silent_modify fun g => .setValue g n v

variable [One K] [Differential K D]

theorem silent_pushForward (e : Expression K) :
    Silent (e.pushForward : GraphM K D (Option (Stamped D))) := by
  induction e with
  | literal v => exact silent_pure none
  | read label n => exact (silent_cell n).bind fun _ => silent_pure _
  | unary k a ih =>
    refine ih.bind fun t => ?_
    cases t with
    | none => exact silent_pure none
    | some t =>
      exact (silent_evaluate a).bind fun _ => (silent_ofOption _).bind fun _ =>
        (silent_stamp _).bind fun _ => silent_pure _
  | binary k l r ihl ihr =>
    rw [Expression.pushForward_binary]
    refine ihl.bind fun s => ihr.bind fun t => silent_ite (silent_pure none) ?_
    exact (silent_evaluate l).bind fun _ => (silent_evaluate r).bind fun _ => silent_carry k _ _ s t
  | shared label e ih =>
    refine silent_get.bind fun g => ?_
    cases g.rememberedTangent? label with
    | some t => exact silent_pure t
    | none =>
      refine ih.bind fun t => (silent_modify ?_).bind fun _ => silent_pure t
      intro g
      exact .of_arena rfl (Nat.le_refl _) (Nat.le_refl _)

theorem silent_pullSide {e : Expression K} (h : ∀ d : D, Silent (e.pullBack d : GraphM K D Unit))
    (j : Option (Jacobian K)) (d : D) : Silent (e.pullSide j d : GraphM K D Unit) :=
  silent_ite (silent_pure ()) <| (silent_ofOption _).bind fun _ => (silent_ofOption _).bind h

theorem silent_pullBack (e : Expression K) (d : D) : Silent (e.pullBack d : GraphM K D Unit) := by
  induction e generalizing d with
  | literal v => exact silent_pure ()
  | read label n => exact silent_accumulate n d
  | unary k a ih =>
    rw [Expression.pullBack_unary]
    refine silent_ite (silent_pure ()) ?_
    exact (silent_evaluate a).bind fun _ => silent_pullSide ih _ d
  | binary k l r ihl ihr =>
    rw [Expression.pullBack_binary]
    refine silent_ite (silent_pure ()) ?_
    refine (silent_evaluate l).bind fun x => (silent_evaluate r).bind fun y => ?_
    exact (silent_pullSide ihl _ d).bind fun _ => silent_pullSide ihr _ d
  | shared label e ih => exact ih d

end Traversals

end GradientGraph
