import GradientGraph.Proofs.Host.Acts
import GradientGraph.Proofs.Plan.Reach

/-!
# Causes that bodies report

A body that is called has been found, so what it reports when it fails is another cause than
that no overload takes its arguments. It is shown for each form of body by the ways in which
computations are put together.
-/

set_option autoImplicit false

namespace GradientGraph

open GradientGraph.Graph World

/-- Whether the outcome is not that no overload takes the arguments. -/
def Found {α : Type} (r : Except Error α) : Prop :=
  ∀ name, r ≠ .error (.noMatchingOverload name)

theorem found_ok {α : Type} (x : α) : Found (.ok x) := fun _ h => by cases h

def Yields {σ α : Type} (P : α → Prop) (m : StateT σ Option α) : Prop :=
  ∀ s x s', m s = some (x, s') → P x

section Rules

variable {σ α β : Type} {P : α → Prop} {Q : β → Prop}

theorem yields_pure {x : α} (hx : P x) : Yields P (pure x : StateT σ Option α) := by
  intro s y s' h
  cases h
  exact hx

theorem Yields.bind {m : StateT σ Option α} {f : α → StateT σ Option β} (hm : Yields P m)
    (hf : ∀ x, P x → Yields Q (f x)) : Yields Q (m >>= f) := by
  intro s y s' h
  obtain ⟨x, s₁, hx, hy⟩ := exists_of_bind h
  exact hf x (hm s x s₁ hx) s₁ y s' hy

theorem yields_bind {m : StateT σ Option α} {f : α → StateT σ Option β}
    (hf : ∀ x, Yields Q (f x)) : Yields Q (m >>= f) :=
  Yields.bind (P := fun _ => True) (fun _ _ _ _ => trivial) fun x _ => hf x

variable {K D : Type}

theorem yields_look {f : Graph K D → α} (hf : ∀ g, P (f g)) :
    Yields P (Graph.look f : GraphM K D α) := by
  intro g x g' h
  cases h
  exact hf _

theorem yields_onGraph {m : GraphM K D α} (hm : Yields P m) : Yields P (onGraph m) := by
  intro w x w' h
  obtain ⟨⟨y, g⟩, hy, h⟩ := Option.map_eq_some_iff.mp h
  cases h
  exact hm w.graph x g hy

theorem yields_onProgram {id : ProgramId} {m : Program D → GraphM K D (Program D × α)}
    (hm : ∀ p, Yields (fun r => P r.2) (m p)) : Yields P (onProgram id m) := by
  intro w x w' h
  obtain ⟨p, q, g, -, hrun, -⟩ := exists_of_onProgram h
  exact hm p w.graph (q, x) g hrun

end Rules

namespace Program

variable {K D : Type}

theorem found_build (p : Program D) (g : Graph K D) : Found (p.build g) := by
  intro name h
  obtain ⟨he, -⟩ | ⟨he, -⟩ := Plan.build_traced.2 _ h <;> cases he

theorem found_compile (p : Program D) (g : Graph K D) : Found (p.compile g).2 := by
  have hbuild := p.found_build g
  unfold compile
  cases hb : p.build g with
  | ok plan => exact found_ok ()
  | error e =>
    intro name h
    cases h
    exact hbuild name hb

theorem found_consult {p : Program D} (g : Graph K D)
    (h : ∀ e, p.state = .failed e → Found (.error e : Except Error Plan)) :
    Found (p.consult g).2 := by
  unfold consult
  split
  · intro name he
    dsimp only at he
    split at he <;> cases he
  · rename_i e hstate
    exact h e hstate
  · intro name he
    cases he

/-- A program that could not be compiled is compiled once more, so it does not matter what it
failed for before. -/
theorem found_ready (p : Program D) (g : Graph K D) : Found (p.ready g).2 := by
  cases hp : p.plan? with
  | some plan =>
    rw [ready_of_plan hp]
    refine found_consult g fun e he => ?_
    rw [plan?, he] at hp
    cases hp
  | none =>
    rw [ready_of_none hp]
    refine found_consult g fun e he name h => ?_
    cases h
    have hbuild := p.found_build g
    unfold compile at he
    split at he
    · cases he
    · rename_i hb
      cases he
      exact hbuild name hb

variable [Zero K] [One K] [Add K] [Mul K] [MulAdd K] [Capacity K] [NatCast K] [Calculus K]
  [Differential K D]

theorem found_run (x : Pass) (p : Program D) :
    Yields (fun r => Found r.2) (x.run p : GraphM K D (Program D × Except Error Unit)) := by
  have hcheck (plan : Plan) : Found (x.check p plan) := by
    intro name h
    unfold Pass.check at h
    split at h
    · split at h <;> cases h
    · split at h <;> cases h
    · cases h
  rw [Pass.run_eq, pass]
  refine (yields_look (P := fun r => Found r.2) fun g => p.found_ready g).bind fun r hready => ?_
  cases r with
  | mk q made =>
    cases made with
    | error e => exact yields_pure fun name h => hready name (by cases h; rfl)
    | ok plan =>
      cases hc : x.check p plan with
      | error e =>
        simp only [hc]
        exact yields_pure fun name h => hcheck plan name (by cases h; exact hc)
      | ok _ =>
        simp only [hc]
        refine yields_bind fun live => ?_
        split
        · exact yields_bind fun q => yields_pure (found_ok ())
        · exact yields_pure fun name h => by cases h

end Program

namespace Body

variable {K D : Type}

theorem found_unitReply {r : Except Error Unit} (h : Found r) :
    Found (unitReply r : Except Error (Reply K)) := by
  intro name he
  cases r with
  | error e => exact h name (by cases he; rfl)
  | ok _ => cases he

theorem yields_addProgram (targets sources : List NodeId) :
    Yields Found (addProgram (Program.create targets sources) :
      HostM K D (Except Error (Reply K))) := by
  unfold Program.create
  split
  · exact yields_pure fun name h => by cases h
  · exact yields_bind fun w => yields_bind fun _ => yields_pure (found_ok _)

variable [Zero K] [Add K] [Mul K] [MulAdd K] [Capacity K] [NatCast K] [Calculus K]

theorem yields_checkShapes (k : BinaryKernel) (name : String) (l r : Formula K) :
    Yields Found (checkShapes k name l r : GraphM K D (Except Error Unit)) := by
  refine yields_bind fun x => yields_bind fun y => yields_bind fun _ => yields_bind fun _ => ?_
  split
  · exact yields_pure (found_ok ())
  · exact yields_pure fun name h => by cases h

theorem yields_applyBinary (k : BinaryKernel) (c : Category) (checkedAs : Option String)
    (l r : Formula K) :
    Yields Found (applyBinary k c checkedAs l r : GraphM K D (Except Error (Reply K))) := by
  have hmake : Yields Found
      (do return plain (.inst (.operation c (← operation (.binary k l r)))) :
        GraphM K D (Except Error (Reply K))) := yields_bind fun a => yields_pure (found_ok _)
  unfold applyBinary
  cases checkedAs with
  | none => exact hmake
  | some name =>
    refine (yields_checkShapes k name l r).bind fun fits hfits => ?_
    cases fits with
    | error e => exact yields_pure fun name h => hfits name (by cases h; rfl)
    | ok _ => exact hmake

variable [One K] [Differential K D] [HostDerivative K D]

/-- No body that is called reports that no overload takes its arguments. -/
theorem yields_run (b : Body) (args : Param.Carriers K b.params) :
    Yields Found (b.run args : HostM K D (Except Error (Reply K))) := by
  have hpass (x : Pass) (id : ProgramId) : Yields Found
      (onProgram id fun p => x.run p >>= fun r => pure (r.1, unitReply r.2) :
        HostM K D (Except Error (Reply K))) :=
    yields_onProgram fun p => (Program.found_run x p).bind fun r hr =>
      yields_pure (found_unitReply hr)
  cases b with
  | newDefault c => exact yields_onGraph (yields_bind fun n => yields_pure (found_ok _))
  | newLiteral c => exact yields_onGraph (yields_bind fun n => yields_pure (found_ok _))
  | newComputed c =>
    exact yields_onGraph (yields_bind fun e => yields_bind fun n => yields_pure (found_ok _))
  | value c => exact yields_onGraph (yields_bind fun x => yields_pure (found_ok _))
  | assignLiteral c => exact yields_onGraph (yields_bind fun ns => yields_pure (found_ok _))
  | assignExpression c =>
    exact yields_onGraph (yields_bind fun e => yields_bind fun ns => yields_pure (found_ok _))
  | setDerivative c d =>
    exact yields_onGraph (yields_bind fun d => yields_bind fun _ => yields_pure (found_ok _))
  | derivative c => exact yields_onGraph (yields_bind fun d => yields_pure (found_ok _))
  | unary k c =>
    exact yields_onGraph (yields_bind fun e => yields_bind fun a => yields_pure (found_ok _))
  | binary k l r c operands name =>
    have hbinary (m m' : GraphM K D (Formula K)) :
        Yields Found (do applyBinary k c name (← m) (← m') :
          GraphM K D (Except Error (Reply K))) :=
      yields_bind fun a => yields_bind fun b => yields_applyBinary k c name a b
    cases operands <;> exact yields_onGraph (hbinary _ _)
  | newProgram => exact yields_addProgram _ _
  | newBoundedProgram => exact yields_addProgram _ _
  | compile =>
    refine yields_onProgram fun p => ?_
    refine (yields_look (P := fun r => Found r.2) fun g => p.found_compile g).bind fun r hr => ?_
    exact yields_pure (found_unitReply hr)
  | compiled => exact yields_onProgram fun p => yields_bind fun g => yields_pure (found_ok _)
  | evaluate => exact hpass .evaluate args.1
  | pushTangent => exact hpass .pushTangent args.1
  | pushTangentAt => exact hpass (.pushTangentAt args.2.1) args.1
  | pullGradient => exact hpass .pullGradient args.1
  | pullGradientAt => exact hpass (.pullGradientAt args.2.1) args.1
  | programText => exact yields_onProgram fun p => yields_pure (found_ok _)
  | echo label params =>
    rw [run]
    split
    · exact yields_pure fun name h => by cases h
    · exact yields_pure (found_ok _)

end Body

end GradientGraph
