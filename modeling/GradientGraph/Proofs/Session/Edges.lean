import GradientGraph.Proofs.Graph.Edges
import GradientGraph.Proofs.Session.Deeds

/-!
# Edges in a session

A call rebuilds the edges that its deed tells, and lets at most one node come into being.
What a step gives up afterwards takes nodes away and leaves the edges of the others.
-/

set_option autoImplicit false

namespace GradientGraph

open GradientGraph.Graph World

/-- Whether nodes came into being, those in `F` had their edges rebuilt, and then nodes
went. -/
def Graph.Follows {K D : Type} (F : Set NodeId) (g g' : Graph K D) : Prop :=
  ∃ g₁, g.Bears F g₁ ∧ g₁.Sheds g'

theorem Graph.Follows.node {K D : Type} {F : Set NodeId} {g g' : Graph K D}
    (h : g.Follows F g') {n : NodeId} {y : Node (Cell K D)} (hy : g'.arena.node? n = some y) :
    y.Stems (n ∈ F) (g.arena.node? n) := by
  obtain ⟨g₁, hbears, hsheds⟩ := h
  exact hbears.node n y (hsheds.nodes n y hy)

theorem Graph.Bears.follows {K D : Type} {F : Set NodeId} {g g' : Graph K D}
    (h : g.Bears F g') : g.Follows F g' := ⟨g', h, .refl g'⟩

section Rules

variable {K D α β : Type} {N : Set NodeId} {deed : Deed D}

def Rebuilds (N : Set NodeId) (deed : Deed D) (m : HostM K D α) : Prop :=
  ∀ (w : World K D) (x : α) (w' : World K D), w.scene.Whole N → m w = some (x, w') →
    w.graph.Bears (deed.rebuilt w.graph) w'.graph

theorem rebuilds_nothing {m : HostM K D α} (hdeed : ∀ g : Graph K D, deed.rebuilt g = ∅)
    (hm : ∀ w x w', m w = some (x, w') → w'.graph = w.graph) : Rebuilds N deed m := by
  intro w x w' hw h
  rw [hdeed, hm w x w' h]
  exact .refl hw.packed

theorem rebuilds_pure (x : α) : Rebuilds N .nothing (pure x : HostM K D α) :=
  rebuilds_nothing (fun _ => rfl) fun w y w' h => by cases h; rfl

theorem rebuilds_onGraph {F : Set NodeId} (hdeed : ∀ g : Graph K D, deed.rebuilt g = F)
    {m : GraphM K D α} (hm : ∀ S, Renews S F m) : Rebuilds N deed (onGraph m) := by
  intro w x w' hw h
  obtain ⟨⟨y, g⟩, hy, h⟩ := Option.map_eq_some_iff.mp h
  cases h
  rw [hdeed]
  exact hm _ w.graph x g hw.packed hw.dated hy

theorem rebuilds_works (hdeed : ∀ g : Graph K D, deed.rebuilt g = ∅) {m : GraphM K D α}
    {T : Set NodeId} (hm : ∀ S, Labours S T m) : Rebuilds N deed (onGraph m) :=
  rebuilds_onGraph hdeed fun S => (hm S).renews

theorem rebuilds_ask (hdeed : ∀ g : Graph K D, deed.rebuilt g = ∅) (id : ProgramId)
    {f : Program D → Graph K D → Program D × α} :
    Rebuilds N deed (onProgram id fun p => do return f p (← get) : HostM K D α) := by
  refine rebuilds_nothing hdeed fun w x w' h => ?_
  obtain ⟨p, q, g, -, hrun, hscene⟩ := exists_of_onProgram h
  obtain ⟨-, rfl⟩ := Prod.mk.inj (Option.some.inj hrun)
  exact congrArg Scene.graph hscene

variable [Zero K] [One K] [Add K] [Mul K] [MulAdd K] [Capacity K] [NatCast K] [Calculus K]
  [Differential K D]

theorem Pass.run_bears {S : Set Nat} {x : Pass} {p q : Program D} {g g' : Graph K D}
    {r : Except Error Unit} (hg : g.Whole S N) (hp : seedStamps p.seeds ⊆ S)
    (h : x.run p g = some ((q, r), g')) : g.Bears ∅ g' := by
  rcases Program.run_cases h with ⟨-, rfl, rfl⟩ | ⟨p', plan, -, hp', -, -, hbody⟩
  · exact .refl hg.packed
  · have hseeds : seedStamps p'.seeds ⊆ S := by
      have hready := p.ready_seeds g
      rw [hp'] at hready
      rwa [hready.1]
    exact (x.works_body hseeds plan g q g' hg.dated hbody).1.bears hg.packed

theorem Rebuilds.bind {m : HostM K D α} {f : α → HostM K D β} (hm : Rebuilds N .nothing m)
    (hi : Idles N m) (hf : ∀ x, Rebuilds N .nothing (f x)) : Rebuilds N .nothing (m >>= f) := by
  intro w y w'' hw h
  obtain ⟨x, w', hx, hy⟩ := exists_of_bind h
  exact (hm w x w' hw hx).trans (hf x w' y w'' (hi w x w' hw hx).2 hy)

end Rules

namespace Body

section Operations

variable {K D : Type} {S : Set Nat} {T : Set NodeId}

theorem works_formulaOf (x : Operand K) : Labours S T (formulaOf x : GraphM K D (Formula K)) := by
  cases x with
  | cell n => exact works_freshLabel.before fun _ => works_pure (Set.empty_subset S)
  | term a => exact works_pure (Set.empty_subset S)

theorem works_operation (a : Formula K) : Labours S T (operation a : GraphM K D (Formula K)) :=
  works_freshLabel.before fun _ => works_pure (Set.empty_subset S)

theorem works_side (x : Side K) : Labours S T (x.formula : GraphM K D (Formula K)) := by
  cases x with
  | literal v => exact works_operation (.literal v)
  | operand x => exact works_formulaOf x

variable [Zero K] [Add K] [Mul K] [MulAdd K] [Capacity K] [NatCast K] [Calculus K]

theorem works_applyBinary (k : BinaryKernel) (c : Category) (checkedAs : Option String)
    (l r : Formula K) :
    Labours S T (applyBinary k c checkedAs l r : GraphM K D (Except Error (Reply K))) := by
  have hmake : Labours S T
      (do return plain (.inst (.operation c (← operation (.binary k l r)))) :
        GraphM K D (Except Error (Reply K))) :=
    (works_operation _).before fun _ => works_pure (Set.empty_subset S)
  unfold applyBinary
  cases checkedAs with
  | none =>
    have hfits : Labours S T (pure (.ok ()) : GraphM K D (Except Error Unit)) :=
      works_pure (Set.empty_subset S)
    refine hfits.before fun fits => ?_
    cases fits with
    | error e => exact works_pure (Set.empty_subset S)
    | ok _ => exact hmake
  | some name =>
    refine (works_checkShapes k name l r).before fun fits => ?_
    cases fits with
    | error e => exact works_pure (Set.empty_subset S)
    | ok _ => exact hmake

theorem renews_binary {k : BinaryKernel} {c : Category} {checkedAs : Option String}
    {l r : GraphM K D (Formula K)} (hl : Labours S ∅ l) (hr : Labours S ∅ r) :
    Renews S ∅ (do applyBinary k c checkedAs (← l) (← r)) :=
  Works.renews (T := ∅) (hl.before fun a => hr.before fun b => works_applyBinary k c checkedAs a b)

end Operations

section Run

variable {K D : Type} {N : Set NodeId}

theorem rebuilds_addProgram (p : Except Error (Program D)) :
    Rebuilds N .nothing (addProgram p : HostM K D (Except Error (Reply K))) := by
  cases p with
  | error e => exact rebuilds_pure _
  | ok p => exact rebuilds_nothing (fun _ => rfl) fun w x w' h => by cases h; rfl

theorem rebuilds_assignLiteral (n : NodeId) (v : Value K) :
    Rebuilds N (.assignLiteral n) (onGraph do
      return .ok { object := .none, displaced := ← Graph.assignLiteral n v } :
        HostM K D (Except Error (Reply K))) := by
  intro w r w' hw h
  obtain ⟨⟨y, g⟩, hy, h⟩ := Option.map_eq_some_iff.mp h
  cases h
  obtain ⟨displaced, _, hrun, h⟩ := exists_of_bind hy
  cases h
  exact bears_assignLiteral hw.packed hrun

variable [Zero K] [One K] [Add K] [Mul K] [MulAdd K] [Capacity K] [NatCast K] [Calculus K]
  [Differential K D]

theorem rebuilds_pass (x : Pass) (id : ProgramId) :
    Rebuilds N (.pass (.number id) x) (onProgram id fun p => do
      let (p, r) ← x.run p
      return (p, unitReply r) : HostM K D (Except Error (Reply K))) := by
  intro w r w' hw h
  obtain ⟨p, q, r, g, hprogram, hrun, rfl, hscene⟩ := exists_of_pass h
  have hgraph : w'.graph = g := congrArg Scene.graph hscene
  rw [hgraph]
  exact x.run_bears hw (Scene.seedStamps_subset hprogram) hrun

variable [HostDerivative K D]

theorem rebuilds_run (b : Body) (args : Param.Carriers K b.params) :
    Rebuilds N (b.deed args) (b.run args : HostM K D (Except Error (Reply K))) := by
  cases b with
  | newDefault c => exact rebuilds_onGraph (fun _ => rfl) fun S => (renews_newVariable _).map _
  | newLiteral c => exact rebuilds_onGraph (fun _ => rfl) fun S => (renews_newVariable _).map _
  | newComputed c =>
    exact rebuilds_onGraph (fun _ => rfl) fun S =>
      (works_formulaOf (T := ∅) args.1).renews_bind fun e => (renews_newComputed e).map _
  | value c =>
    exact rebuilds_works (fun _ => rfl) (T := ∅) fun S =>
      (works_cell args.1).bind fun _ => works_pure (Set.empty_subset _)
  | assignLiteral c => exact rebuilds_assignLiteral args.1 args.2.1
  | assignExpression c =>
    exact rebuilds_onGraph (fun _ => rfl) fun S =>
      (works_formulaOf (T := ∅) args.2.1).renews_bind fun e => (renews_assignFormula args.1 e).map _
  | setDerivative c d =>
    have hdeed (g : Graph K D) : Deed.rebuilt g ((setDerivative c d).deed args) = ∅ := by
      have hgive : ((setDerivative c d).deed args : Deed D) =
        ((HostDerivative.ofValue args.2.1).map (.giveDerivative args.1)).getD .nothing := rfl
      rw [hgive]
      cases (HostDerivative.ofValue args.2.1 : Option D) <;> rfl
    exact rebuilds_works hdeed (T := {args.1}) fun S => (works_ofOption _).before fun d =>
      (works_giveDerivative (Set.mem_singleton _) d).before fun _ => works_pure (Set.empty_subset S)
  | derivative c =>
    exact rebuilds_works (fun _ => rfl) (T := ∅) fun S => works_get fun _ =>
      works_pure (Set.empty_subset _)
  | unary k c =>
    exact rebuilds_works (fun _ => rfl) (T := ∅) fun S => (works_formulaOf args.1).before fun e =>
      (works_operation _).before fun _ => works_pure (Set.empty_subset S)
  | binary k l r c operands name =>
    obtain ⟨op, hop⟩ := exists_operator k l r c operands name args
    rw [Operator.run_eq hop]
    exact rebuilds_onGraph (fun _ => rfl) fun S =>
      renews_binary (works_side op.left) (works_side op.right)
  | newProgram => exact rebuilds_addProgram _
  | newBoundedProgram => exact rebuilds_addProgram _
  | compile => exact rebuilds_ask (fun _ => rfl) args.1
  | compiled => exact rebuilds_ask (fun _ => rfl) args.1
  | evaluate => exact rebuilds_pass .evaluate args.1
  | pushTangent => exact rebuilds_pass .pushTangent args.1
  | pushTangentAt => exact rebuilds_pass (.pushTangentAt args.2.1) args.1
  | pullGradient => exact rebuilds_pass .pullGradient args.1
  | pullGradientAt => exact rebuilds_pass (.pullGradientAt args.2.1) args.1
  | programText =>
    have hask : Rebuilds N .nothing (onProgram args.1 fun p => do
        return (fun (p : Program D) (_ : Graph K D) => (p, plain (.str p.text))) p (← get) :
          HostM K D (Except Error (Reply K))) := rebuilds_ask (fun _ => rfl) args.1
    exact hask
  | echo label params =>
    rw [run]
    split <;> exact rebuilds_pure _

end Run

end Body

section Calls

variable {K D : Type} [Zero K] [One K] [Add K] [Mul K] [MulAdd K] [Capacity K] [NatCast K]
  [Calculus K] [Differential K D] [HostDerivative K D] {N : Set NodeId}

theorem Module.Runs.rebuilds {m : Module} {os : List (Object K)} {c : Option (Call K)}
    {x : HostM K D (Except Error (Reply K))} (h : m.Runs os c x) :
    Rebuilds N (deedOf c) x := by
  cases h with
  | @call c hbody hargs => exact c.body.rebuilds_run c.args
  | refused e => exact rebuilds_pure _

namespace Session

variable {s s' : Session K D}

theorem rebuilds_perform {request : Request K} {m : HostM K D (Except Error (Reply K))}
    (h : s.perform request = .ok m) : Rebuilds N (deedOf (s.call? request)) m := by
  cases performs h with
  | @call c hc =>
    rw [hc]
    exact c.body.rebuilds_run c.args
  | refused hc e =>
    rw [hc]
    exact rebuilds_pure _
  | bare hc name =>
    rw [hc]
    have hlabel : Rebuilds N .nothing (onGraph do
        return Body.plain (.inst (.bare name (← freshLabel))) :
          HostM K D (Except Error (Reply K))) :=
      rebuilds_works (fun _ => rfl) (T := ∅) fun S =>
        works_freshLabel.before fun _ => works_pure (Set.empty_subset S)
    exact hlabel
  | copy hc ho =>
    rw [hc]
    exact rebuilds_pure _

theorem Tours.rebuilds {m : Module} {os : List (Object K)} {x : HostM K D _} (h : Tours m os x)
    (hos : Object.nodesIn os ⊆ N) : Rebuilds N .nothing x := by
  induction h with
  | done => exact rebuilds_pure []
  | @next name c n hn x hx ih =>
    have hn := hos (Object.mem_nodesIn hn)
    have hvalue := (m.runs_callMethod (D := D) (.inst (.var c n)) "__call__" []).rebuilds (N := N)
    rw [m.deedOf_method] at hvalue
    have hderivative := (m.runs_call (D := D) "d" [.inst (.var c n)]).rebuilds (N := N)
    rw [m.deedOf_function] at hderivative
    exact hvalue.bind (idles_value m hn) fun _ => hderivative.bind (idles_derivative m hn) fun _ =>
      ih.bind (hx.idles hos) fun _ => rebuilds_pure _

variable [BEq K]

theorem step_follows {x : Step K} {r : Except Failure (Answer K)}
    (hs : s.world.scene.Whole s.nodes) (h : s.step x = some (s', r)) :
    s.world.graph.Follows (Deed.rebuilt s.world.graph (s.deed x : Deed D)) s'.world.graph := by
  have hidle : s.world.graph.Bears ∅ s.world.graph := .refl hs.packed
  cases steps h with
  | unnamed hf =>
    rw [deed, call?_of_error hf]
    exact hidle.follows
  | refused hm hrun => exact (rebuilds_perform hm s.world _ _ hs hrun).follows
  | @made request m hm reply w hrun storeAs =>
    exact ⟨w.graph, rebuilds_perform hm s.world _ _ hs hrun,
      sheds_keep (s := { s with world := w }) storeAs reply⟩
  | dropped => exact ⟨s.world.graph, hidle, Graph.sheds_release ..⟩
  | dumped hrun =>
    have htour := (tours (D := D) s.module (List.Subset.refl _)).rebuilds (subset_refl s.nodes)
    exact (htour s.world _ _ hs hrun).follows
  | asked hx =>
    rw [deed_of_asked hx]
    exact hidle.follows
  | _ => exact hidle.follows

end Session

end Calls

end GradientGraph
