import GradientGraph.Proofs.Graph.Residue
import GradientGraph.Proofs.Session.Invariant

/-!
# What a session remembers

No function that a host can call leaves anything remembered, and so no step of a
session does.
-/

set_option autoImplicit false

namespace GradientGraph

open GradientGraph.Graph World

section Rules

variable {K D α β : Type}

def TidyHost (m : HostM K D α) : Prop :=
  ∀ (P : Set Label) (w : World K D) (x : α) (w' : World K D), w.graph.Confined P →
    m w = some (x, w') → w'.graph.Confined P

theorem tidyHost_pure (x : α) : TidyHost (pure x : HostM K D α) := by
  intro P w y w' hw h
  cases h
  exact hw

theorem TidyHost.bind {m : HostM K D α} {f : α → HostM K D β} (hm : TidyHost m)
    (hf : ∀ x, TidyHost (f x)) : TidyHost (m >>= f) := by
  intro P w y w'' hw h
  obtain ⟨x, w', hx, hy⟩ := exists_of_bind h
  exact hf x P w' y w'' (hm P w x w' hw hx) hy

theorem Tidy.onGraph {m : GraphM K D α} (hm : Tidy m) : TidyHost (onGraph m) := by
  intro P w x w' hw h
  obtain ⟨⟨y, g⟩, hy, h⟩ := Option.map_eq_some_iff.mp h
  cases h
  exact hm P w.graph x g hw hy

theorem tidyHost_onProgram {id : ProgramId} {m : Program D → GraphM K D (Program D × α)}
    (hm : ∀ p, Tidy (m p)) : TidyHost (onProgram id m) := by
  intro P w x w' hw h
  obtain ⟨_, _, hget, h⟩ := exists_of_bind h
  cases hget
  cases hp : w.programs[id]? with
  | none =>
    simp only [hp] at h
    cases h
  | some p =>
    simp only [hp] at h
    obtain ⟨y, w₁, hrun, h⟩ := exists_of_bind h
    cases h
    exact (hm p).onGraph P w y w₁ hw hrun

end Rules

namespace Body

section Operations

variable {K D : Type}

theorem tidy_formulaOf (x : Operand K) : Tidy (formulaOf x : GraphM K D (Formula K)) := by
  cases x with
  | cell n => exact tidy_freshLabel.bind fun _ => tidy_pure _
  | term a => exact tidy_pure a

theorem tidy_operation (b : Formula K) : Tidy (operation b : GraphM K D (Formula K)) :=
  tidy_freshLabel.bind fun _ => tidy_pure _

theorem tidy_literalOf (v : Value K) : Tidy (literalOf v : GraphM K D (Formula K)) :=
  tidy_freshLabel.bind fun _ => tidy_pure _

theorem tidy_side (x : Side K) : Tidy (x.formula : GraphM K D (Formula K)) := by
  cases x with
  | literal v => exact tidy_literalOf v
  | operand x => exact tidy_formulaOf x

theorem tidyHost_addProgram (p : Except Error (Program D)) :
    TidyHost (addProgram p : HostM K D (Except Error (Reply K))) := by
  cases p with
  | error e => exact tidyHost_pure _
  | ok q =>
    intro P w x w' hw h
    cases h
    exact hw

variable [Zero K] [Add K] [Mul K] [MulAdd K] [Capacity K] [NatCast K] [Calculus K]

theorem tidy_checkShapes (k : BinaryKernel) (name : String) (l r : Formula K) :
    Tidy (checkShapes k name l r : GraphM K D (Except Error Unit)) := by
  intro P g y g' hg h
  obtain ⟨u, g₁, hu, h⟩ := exists_of_bind h
  obtain ⟨v, g₂, hv, h⟩ := exists_of_bind h
  have hg₁ : g₁.Confined (P ∪ {i | l.expression.HasLabel i}) :=
    confines_evaluate (fun i hi => .inr hi) g u g₁ (hg.mono Set.subset_union_left) hu
  have hg₂ : g₂.Confined (P ∪ {i | l.expression.HasLabel i} ∪ {i | r.expression.HasLabel i}) :=
    confines_evaluate (fun i hi => .inr hi) g₁ v g₂ (hg₁.mono Set.subset_union_left) hv
  have hl : (g₂.forget l).Confined (P ∪ {i | r.expression.HasLabel i}) := by
    apply hg₂.forget
    rintro i ((hi | hi) | hi)
    · exact .inl (.inl hi)
    · exact .inr hi
    · exact .inl (.inr hi)
  have hr : ((g₂.forget l).forget r).Confined P := hl.forget fun i hi => hi
  exact tidy_ite (tidy_pure _) (tidy_pure _) P _ y g' hr h

theorem tidy_applyBinary (k : BinaryKernel) (c : Category) (checkedAs : Option String)
    (l r : Formula K) :
    Tidy (applyBinary k c checkedAs l r : GraphM K D (Except Error (Reply K))) := by
  have herror (e : Error) : Tidy (pure (.error e) : GraphM K D (Except Error (Reply K))) :=
    tidy_pure _
  have hmake : Tidy (do return plain (.inst (.operation c (← operation (.binary k l r)))) :
      GraphM K D (Except Error (Reply K))) := (tidy_operation _).bind fun _ => tidy_pure _
  unfold applyBinary
  cases checkedAs with
  | none =>
    refine (tidy_pure _).bind fun fits => ?_
    cases fits with
    | error e => exact herror e
    | ok _ => exact hmake
  | some name =>
    refine (tidy_checkShapes k name l r).bind fun fits => ?_
    cases fits with
    | error e => exact herror e
    | ok _ => exact hmake

end Operations

variable {K D : Type} [Zero K] [One K] [Add K] [Mul K] [MulAdd K] [Capacity K] [NatCast K]
  [Calculus K] [Differential K D]

theorem tidyHost_pass (x : Pass) (id : ProgramId) :
    TidyHost (onProgram id fun p => do
      let (p, r) ← x.run p
      return (p, unitReply r) : HostM K D (Except Error (Reply K))) :=
  tidyHost_onProgram fun p => (x.tidy_run p).bind fun _ => tidy_pure _

variable [HostDerivative K D]

theorem tidyHost_run (b : Body) (args : Param.Carriers K b.params) :
    TidyHost (b.run args : HostM K D (Except Error (Reply K))) := by
  cases b with
  | newDefault c => exact ((tidy_newVariable _).bind fun _ => tidy_pure _).onGraph
  | newLiteral c => exact ((tidy_newVariable _).bind fun _ => tidy_pure _).onGraph
  | newComputed c =>
    exact ((tidy_formulaOf _).bind fun e => (tidy_newComputed e).bind fun _ => tidy_pure _).onGraph
  | value c => exact ((tidy_cell _).bind fun _ => tidy_pure _).onGraph
  | assignLiteral c => exact ((tidy_assignLiteral _ _).bind fun _ => tidy_pure _).onGraph
  | assignExpression c =>
    exact ((tidy_formulaOf _).bind fun e =>
      (tidy_assignFormula _ e).bind fun _ => tidy_pure _).onGraph
  | setDerivative c d =>
    exact ((tidy_ofOption _).bind fun d =>
      (tidy_giveDerivative _ d).bind fun _ => tidy_pure _).onGraph
  | derivative c =>
    exact ((tidy_get.bind fun _ => tidy_pure _).bind fun _ => tidy_pure _).onGraph
  | unary k c =>
    exact ((tidy_formulaOf _).bind fun _ => (tidy_operation _).bind fun _ => tidy_pure _).onGraph
  | binary k l r c operands name =>
    obtain ⟨op, hop⟩ := exists_operator k l r c operands name args
    rw [Operator.run_eq hop]
    exact ((tidy_side op.left).bind fun _ => (tidy_side op.right).bind fun _ =>
      tidy_applyBinary op.kernel op.result op.checkedAs _ _).onGraph
  | newProgram => exact tidyHost_addProgram _
  | newBoundedProgram => exact tidyHost_addProgram _
  | compile => exact tidyHost_onProgram fun p => tidy_get.bind fun _ => tidy_pure _
  | compiled => exact tidyHost_onProgram fun p => tidy_get.bind fun _ => tidy_pure _
  | evaluate => exact tidyHost_pass .evaluate args.1
  | pushTangent => exact tidyHost_pass .pushTangent args.1
  | pushTangentAt => exact tidyHost_pass (.pushTangentAt args.2.1) args.1
  | pullGradient => exact tidyHost_pass .pullGradient args.1
  | pullGradientAt => exact tidyHost_pass (.pullGradientAt args.2.1) args.1
  | programText => exact tidyHost_onProgram fun p => tidy_pure _
  | echo label params =>
    rw [run]
    split
    · exact tidyHost_pure _
    · exact tidyHost_pure _

end Body

theorem Session.confined_keep {K D : Type} {P : Set Label} {s : Session K D}
    (h : s.world.graph.Confined P) (storeAs : Option String)
    (r : Reply K) : (s.keep storeAs r).world.graph.Confined P := by
  cases storeAs with
  | some name => exact (h.release _ _).release _ _
  | none => exact (h.release _ _).release _ _

section Calls

variable {K D : Type} [Zero K] [One K] [Add K] [Mul K] [MulAdd K] [Capacity K] [NatCast K]
  [Calculus K] [Differential K D] [HostDerivative K D]

theorem Module.Runs.tidyHost {m : Module} {os : List (Object K)} {c : Option (Call K)}
    {x : HostM K D (Except Error (Reply K))} (h : m.Runs os c x) : TidyHost x := by
  cases h with
  | call hbody hargs => exact Body.tidyHost_run _ _
  | refused e => exact tidyHost_pure _

namespace Session

theorem Tours.tidyHost {m : Module} {os : List (Object K)} {x : HostM K D _}
    (h : Tours m os x) : TidyHost x := by
  induction h with
  | done => exact tidyHost_pure []
  | next name hn _ ih =>
    exact (m.runs_callMethod _ _ []).tidyHost.bind fun _ => (m.runs_call "d" _).tidyHost.bind
      fun _ => ih.bind fun _ => tidyHost_pure _

variable {s s' : Session K D}

theorem tidyHost_perform {request : Request K} {m : HostM K D (Except Error (Reply K))}
    (h : s.perform request = .ok m) : TidyHost m := by
  cases performs h with
  | call hc hbody hargs => exact Body.tidyHost_run _ _
  | refused hc e => exact tidyHost_pure _
  | bare hc name => exact tidy_freshLabel.onGraph.bind fun _ => tidyHost_pure _
  | copy hc ho => exact tidyHost_pure _

variable [BEq K]

theorem confined_step {P : Set Label} {x : Step K} {r : Except Failure (Answer K)}
    (hs : s.world.graph.Confined P) (h : s.step x = some (s', r)) :
    s'.world.graph.Confined P := by
  cases steps h with
  | refused hm hrun => exact tidyHost_perform hm P s.world _ _ hs hrun
  | @made request m hm reply w hrun storeAs =>
    exact confined_keep (s := { s with world := w }) (tidyHost_perform hm P s.world _ _ hs hrun)
      storeAs reply
  | dropped => exact hs.release _ _
  | dumped hrun =>
    exact (tours (D := D) s.module (List.Subset.refl _)).tidyHost P s.world _ _ hs hrun
  | _ => exact hs

theorem Reachable.confined (h : s.Reachable) : s.world.graph.Confined ∅ := by
  induction h with
  | start m => exact .start
  | step x hs h ih => exact confined_step ih h

end Session

end Calls

end GradientGraph
