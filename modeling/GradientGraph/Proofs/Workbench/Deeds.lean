import GradientGraph.Proofs.Workbench.Invariant

/-!
# Steps of a workbench as deeds

A step that is not refused does the deed that its names stand for. Between two steps the
graph is whole with the nodes that the stored items refer to.
-/

set_option autoImplicit false

namespace GradientGraph

open GradientGraph.Graph

def Item.nodeSet {K : Type} (x : Item K) : Set NodeId := {n | n ∈ x.nodes}

namespace Workbench

variable {K D α : Type}

def program? (w : Workbench K D) : ProgramKey → Option (Program D)
  | .name f => w.programs.find? f
  | .number _ => none

def scene (w : Workbench K D) : Scene K D := ⟨w.graph, w.program?⟩

def nodes (w : Workbench K D) : Set NodeId := {n | n ∈ itemNodes w.items}

section Items

variable {w : Workbench K D}

theorem item_nodes_subset {name : String} {x : Item K} (h : w.item name = .ok x) :
    x.nodeSet ⊆ w.nodes := by
  unfold item at h
  split at h
  · rename_i hfind
    cases h
    exact fun n hn => List.mem_flatMap.mpr ⟨_, Table.mem_of_find? hfind, hn⟩
  · cases h

theorem variableNode_mem {name : String} {n : NodeId} (h : w.variableNode name = .ok n) :
    n ∈ w.nodes := by
  obtain ⟨x, hx, h⟩ := exists_of_except_bind h
  cases x with
  | var c m =>
    cases h
    exact item_nodes_subset hx (List.mem_singleton.mpr rfl)
  | _ => cases h

theorem nodes_put {name : String} {x : Item K} :
    {n | n ∈ itemNodes (w.items.put name x)} ⊆ x.nodeSet ∪ w.nodes := by
  intro n hn
  obtain ⟨e, he, hn⟩ := List.mem_flatMap.mp hn
  rcases Table.mem_put he with heq | he
  · exact .inl (heq ▸ hn)
  · exact .inr (List.mem_flatMap.mpr ⟨e, he, hn⟩)

theorem nodes_erase {name : String} : {n | n ∈ itemNodes (w.items.erase name)} ⊆ w.nodes := by
  intro n hn
  obtain ⟨e, he, hn⟩ := List.mem_flatMap.mp hn
  exact List.mem_flatMap.mpr ⟨e, Table.mem_erase he, hn⟩

theorem whole_release {pending : List NodeId} (h : w.scene.Whole w.nodes) :
    (w.release pending).scene.Whole w.nodes :=
  Graph.Whole.release h (fun _ hn => hn) pending

theorem whole_store {name : String} {x : Item K} (h : w.scene.Whole (x.nodeSet ∪ w.nodes)) :
    (w.store name x).scene.Whole (w.store name x).nodes := by
  let stored : Workbench K D := { w with items := w.items.put name x }
  have hstored : stored.scene.Whole stored.nodes := h.mono nodes_put
  exact whole_release hstored

theorem scene_put {g : Graph K D} {name : String} {p : Program D} :
    ({ w with graph := g, programs := w.programs.put name p } : Workbench K D).scene =
      ⟨g, Function.update w.program? (.name name) (some p)⟩ := by
  refine congrArg (Scene.mk g) (funext fun f => ?_)
  cases f with
  | number id => rfl
  | name k =>
    have hput : (w.programs.put name p).find? k = _ := Table.find?_put ..
    by_cases hk : k = name
    · subst hk
      rw [Function.update_self]
      exact hput.trans (if_pos rfl)
    · have hne : ProgramKey.name k ≠ .name name := fun heq => hk (by cases heq; rfl)
      rw [Function.update_of_ne hne]
      exact hput.trans (if_neg hk)

theorem whole_forget (hw : w.scene.Whole w.nodes) (name : String) :
    (w.forget name).scene.Whole (w.forget name).nodes := by
  let erased : Workbench K D :=
    { w with items := w.items.erase name, programs := w.programs.erase name }
  have hstamps : erased.scene.stamps ⊆ w.scene.stamps := by
    refine Scene.stamps_subset fun f p hp => .inl ?_
    cases f with
    | number id => cases hp
    | name k =>
      have hfind := Table.find?_erase w.programs name k
      by_cases hk : k = name
      · cases (hfind.trans (if_pos hk)).symm.trans hp
      · exact (hfind.trans (if_neg hk)).symm.trans hp
  exact whole_release (w := erased) (Graph.Whole.mono hw hstamps nodes_erase)

theorem whole_stored (hw : w.scene.Whole w.nodes) (name : String) {ts ss : List NodeId}
    {p : Program D} (hp : Program.create ts ss = .ok p) :
    Scene.Whole w.nodes ⟨w.graph, Function.update w.program? (.name name) (some p)⟩ := by
  have hstamps : seedStamps p.seeds ⊆ w.scene.stamps := by
    rw [Program.seeds_of_create hp]
    rintro i ⟨s, hs, -⟩
    cases hs
  exact Graph.Whole.mono hw
    (Scene.stamps_update.trans (Set.union_subset hstamps (subset_refl _))) (subset_refl _)

theorem whole_works {S : Set Nat} {T : Set NodeId} {m : GraphM K D α} {Q : α → Set Nat}
    (hm : Works S T m Q) (hs : Silent m) (hw : w.graph.Whole S w.nodes) {y : α} {g : Graph K D}
    (hrun : m w.graph = some (y, g)) : w.graph.Grows ∅ T g ∧ g.Whole S w.nodes := by
  have hbuilds := hm.builds (N := w.nodes) hs w.graph y g hw hrun
  rwa [Set.empty_union] at hbuilds

theorem derivative?_given {n : NodeId} {d : D} {u : Unit} {g g' : Graph K D}
    (hn : g.arena.contains n) (hrun : giveDerivative n d g = some (u, g')) :
    g'.derivative? n = some ⟨g.nextStamp, d⟩ := by
  cases hrun
  have hset := derivative?_setDerivative (g := { g with nextStamp := g.nextStamp + 1 })
    (d := some ⟨g.nextStamp, d⟩) hn n
  exact hset.trans (if_pos rfl)

end Items

section Formulas

variable {w : Workbench K D} {S : Set Nat} {N T : Set NodeId}

theorem builds_formula {x : Item K} (hx : x.nodeSet ⊆ N) :
    Builds S N ∅ T (x.formula : GraphM K D (Formula K)) Formula.readSet := by
  have hreads (a : Formula K) (ha : {n | n ∈ a.nodes} ⊆ N) : a.readSet ⊆ N :=
    fun _ hn => ha (Formula.mem_nodes.mpr hn)
  cases x with
  | var c n => exact builds_read (hx (List.mem_singleton.mpr rfl))
  | operation c a => exact builds_pure (hreads a hx)
  | wrapper c a => exact builds_pure (hreads a hx)
  | evaluator c a => exact builds_pure (hreads a hx)

theorem builds_operand {x : Argument K} {c : Category} {m : GraphM K D (Formula K)}
    (h : w.operand x = .ok (c, m)) (hN : w.nodes ⊆ N) : Builds S N ∅ T m Formula.readSet := by
  cases x with
  | literal v =>
    cases h
    exact builds_literal v
  | ref name =>
    obtain ⟨x, hx, h⟩ := exists_of_except_bind h
    cases h
    exact builds_formula ((item_nodes_subset hx).trans hN)

theorem works_formula (x : Item K) : Labours S T (x.formula : GraphM K D (Formula K)) := by
  cases x with
  | var c n => exact works_freshLabel.before fun _ => works_pure (Set.empty_subset S)
  | operation c a => exact works_pure (Set.empty_subset S)
  | wrapper c a => exact works_pure (Set.empty_subset S)
  | evaluator c a => exact works_pure (Set.empty_subset S)

theorem nodeSet_formula {a : Formula K} : {n | n ∈ a.nodes} = a.readSet :=
  Set.ext fun _ => Formula.mem_nodes

end Formulas

section Steps

variable [Zero K] [Add K] [Mul K] [MulAdd K] [Capacity K] [NatCast K] [Calculus K]
  {w : Workbench K D}

theorem works_readItem {S : Set Nat} {T : Set NodeId} (x : Item K) :
    Works S T (readItem x : GraphM K D (Value K)) fun _ => ∅ := by
  cases x with
  | var c n => exact (works_cell n).bind fun _ => works_pure (Set.empty_subset _)
  | operation c a => exact works_evaluateOnce a
  | wrapper c a => exact works_evaluate _
  | evaluator c a => exact works_evaluate _

theorem Makes.whole {S : Set Nat} {m : GraphM K D (Item K)} (hm : w.Makes m)
    (hw : w.graph.Whole S w.nodes) {y : Item K} {g : Graph K D} (hrun : m w.graph = some (y, g)) :
    w.graph.Grows ∅ ∅ g ∧ g.Whole S (y.nodeSet ∪ w.nodes) := by
  have hbuilds (hm : Builds S w.nodes ∅ ∅ m Item.nodeSet) :
      w.graph.Grows ∅ ∅ g ∧ g.Whole S (y.nodeSet ∪ w.nodes) := hm w.graph y g hw hrun
  cases hm with
  | fresh c v =>
    exact hbuilds ((builds_newVariable v).map (Item.var c)
      fun _ _ hn => .inl (List.mem_singleton.mp hn))
  | @computed _ x hx =>
    refine hbuilds ((builds_formula (item_nodes_subset hx)).bind fun a => ?_)
    exact (builds_newComputed Set.subset_union_left).map (Item.var x.category)
      fun _ _ hn => .inl (List.mem_singleton.mp hn)
  | binary hl hr k c =>
    refine hbuilds <| (builds_operand hl (subset_refl _)).bind fun x =>
      (builds_operand hr Set.subset_union_right).bind fun y => ?_
    have hreads : (Formula.binary k x y).readSet ⊆ y.readSet ∪ (x.readSet ∪ w.nodes) :=
      readSet_binary (Set.subset_union_left.trans Set.subset_union_right) Set.subset_union_left
    exact (builds_share hreads).map (Item.operation c)
      fun _ => nodeSet_formula.subset.trans Set.subset_union_left
  | unary hl k c =>
    refine hbuilds ((builds_operand hl (subset_refl _)).bind fun a => ?_)
    have hreads : (Formula.unary k a).readSet ⊆ a.readSet ∪ w.nodes := Set.subset_union_left
    exact (builds_share hreads).map (Item.operation c)
      fun _ => nodeSet_formula.subset.trans Set.subset_union_left
  | @wrapper _ x hx =>
    exact hbuilds ((builds_formula (item_nodes_subset hx)).map (Item.wrapper x.category)
      fun _ => nodeSet_formula.subset.trans Set.subset_union_left)
  | @evaluator _ x hx =>
    refine hbuilds ((builds_formula (item_nodes_subset hx)).bind fun a => ?_)
    exact (builds_share Set.subset_union_left).map (Item.evaluator x.category)
      fun _ => nodeSet_formula.subset.trans Set.subset_union_left
  | expression ha c =>
    cases hrun
    exact ⟨.refl _ _, (hw.uses ha).mono (subset_refl S)
      (Set.union_subset_union_left _ nodeSet_formula.subset)⟩

theorem Assigns.whole {S : Set Nat} {deed : Deed D} {m : GraphM K D (List NodeId)}
    (hm : w.Assigns deed m) (hw : w.graph.Whole S w.nodes) {displaced : List NodeId}
    {g : Graph K D} (hrun : m w.graph = some (displaced, g)) :
    w.graph.Grows (deed.rebuilt w.graph) (deed.touched true) g ∧ g.Whole S w.nodes := by
  cases hm with
  | literal hn v => exact hw.assignLiteral (variableNode_mem hn) hrun
  | @formula _ _ n y hn hy =>
    have hassign : Builds S w.nodes {n} ∅
        (do Graph.assignFormula n (← y.formula) : GraphM K D (List NodeId)) fun _ => ∅ :=
      (builds_formula (item_nodes_subset hy)).bind fun a =>
        builds_assignFormula (.inr (variableNode_mem hn)) Set.subset_union_left
    obtain ⟨hgrows, hwhole⟩ := hassign w.graph displaced g hw hrun
    exact ⟨hgrows, hwhole.mono (subset_refl S) Set.subset_union_right⟩

variable [One K] [Differential K D]

theorem Inquires.mild {x : Step K D} {deed : Deed D} {m : GraphM K D α}
    (h : w.Inquires x deed m) : deed.Mild := by
  cases h <;> trivial

theorem Inquires.works {S : Set Nat} {x : Step K D} {deed : Deed D} {m : GraphM K D α}
    (h : w.Inquires x deed m) : ∃ Q, Works S (deed.touched true) m Q := by
  cases h with
  | value hx => exact ⟨_, works_readItem _⟩
  | text name n => exact ⟨_, works_cell n⟩
  | stateText name n => exact ⟨_, works_cell n⟩
  | isConstant name x => exact ⟨_, works_formula x⟩
  | forget name x => exact ⟨_, (works_formula x).before fun a => works_forget a⟩
  | pushForward hx => exact ⟨_, (works_formula _).before fun a => works_pushForward _⟩
  | pullBack hx d =>
    exact ⟨_, (works_formula _).before fun a => works_pullBack (fun n _ => Set.mem_univ n) d⟩
  | accumulate name n d => exact ⟨_, works_accumulate (Set.mem_univ n) d⟩
  | clearDerivative name n => exact ⟨_, works_clearDerivative (Set.mem_univ n)⟩

theorem leads_forget {done : Bool} (name : String) :
    w.scene.Leads (.replace (.name name) : Deed D) done (w.forget name).scene := by
  let erased : Workbench K D :=
    { w with items := w.items.erase name, programs := w.programs.erase name }
  have hother (f : ProgramKey) (hf : f ≠ .name name) :
      erased.scene.program? f = w.scene.program? f := by
    cases f with
    | number id => rfl
    | name k =>
      have hk : k ≠ name := fun heq => hf (congrArg ProgramKey.name heq)
      exact (Table.find?_erase ..).trans (if_neg hk)
  have hleads : w.scene.Leads (.replace (.name name) : Deed D) done erased.scene :=
    .of_does (Deed.does_replace rfl hother)
  exact hleads.sheds (Graph.sheds_release ..)

theorem Assigns.does {deed : Deed D} {m : GraphM K D (List NodeId)} (h : w.Assigns deed m)
    {done : Bool} {g : Graph K D}
    (hgrows : w.graph.Grows (deed.rebuilt w.graph) (deed.touched done) g) :
    deed.Does done w.scene ⟨g, w.program?⟩ := by
  cases h <;> exact Deed.does_graph rfl hgrows (fun _ _ h => by cases h) fun _ _ hp => hp

variable [NumberText K] [HostDerivative K D]

theorem step_leads (hw : w.scene.Whole w.nodes) {w' : Workbench K D} {x : Step K D}
    {r : Except Failure (Answer K)} (h : w.step x = some (w', r)) :
    w.scene.Leads (w.deed x) r.isOk w'.scene ∧ w'.scene.Whole w'.nodes := by
  have hidle (done : Bool) : w.scene.Leads (.nothing : Deed D) done w.scene :=
    .of_does (Deed.Mild.does trivial (.refl _ _) fun _ _ hp => hp)
  cases steps h with
  | asked hdeed r =>
    rw [hdeed]
    exact ⟨hidle _, hw⟩
  | noted hdeed =>
    rw [hdeed]
    exact ⟨hidle _, hw⟩
  | inquired hm hrun =>
    obtain ⟨Q, hworks⟩ := hm.works
    obtain ⟨hgrows, hwhole⟩ := whole_works hworks hm.silent hw hrun
    exact ⟨.of_does (hm.mild.does hgrows fun _ _ hp => hp), hwhole⟩
  | @made hdeed _ hm y g hrun name =>
    rw [hdeed]
    obtain ⟨hgrows, hwhole⟩ := hm.whole hw hrun
    let made : Workbench K D := { w with graph := g }
    have hleads : w.scene.Leads (.nothing : Deed D) true made.scene :=
      .of_does (Deed.Mild.does trivial hgrows fun _ _ hp => hp)
    exact ⟨hleads.sheds (Graph.sheds_release ..), whole_store (w := made) hwhole⟩
  | @assigned _ hm displaced g hrun =>
    obtain ⟨hgrows, hwhole⟩ := hm.whole hw hrun
    let assigned : Workbench K D := { w with graph := g }
    have hleads : w.scene.Leads (w.deed x) true assigned.scene := .of_does (hm.does hgrows)
    exact ⟨hleads.sheds (Graph.sheds_release ..), whole_release (w := assigned) hwhole⟩
  | @given name n hn d hdeed u g hrun =>
    have hgive : Labours w.scene.stamps {n} (giveDerivative n d : GraphM K D Unit) :=
      works_giveDerivative (Set.mem_singleton n) d
    obtain ⟨hgrows, hwhole⟩ := whole_works hgive (silent_giveDerivative n d) hw hrun
    rw [hdeed]
    refine ⟨.of_does (Deed.does_graph rfl hgrows (fun m c h => ?_) fun _ _ hp => hp), hwhole⟩
    cases h
    exact derivative?_given (hw.held n (variableNode_mem hn)) hrun
  | @dropped name hdeed =>
    rw [hdeed]
    exact ⟨leads_forget name, whole_forget hw name⟩
  | @stored name hdeed _ _ p hp =>
    rw [hdeed, scene_put]
    exact ⟨.of_does (Deed.does_replace rfl fun k hk => Function.update_of_ne hk _ _),
      whole_stored hw name hp⟩
  | @compiled name p hp hdeed r hr =>
    have hprogram : w.scene.program? (.name name) = some p := hp
    rw [hdeed, hr, scene_put]
    exact ⟨.of_does (Deed.does_compile hprogram), Scene.Whole.compile hw hprogram⟩
  | @passed name p q hp y hdeed made g hrun r hr =>
    have hprogram : w.scene.program? (.name name) = some p := hp
    rw [hdeed, hr, scene_put]
    exact ⟨.of_does (Deed.does_pass hw hprogram hrun), Scene.Whole.pass hw hprogram hrun⟩

theorem Reachable.whole (h : w.Reachable) : w.scene.Whole w.nodes := by
  induction h with
  | start =>
    refine Graph.Whole.mono Graph.whole_empty ?_ ?_
    · rintro i ⟨f, p, hp, -⟩
      cases f with
      | number id => cases hp
      | name f => cases hp
    · intro n hn
      cases hn
  | step x _ h ih => exact (step_leads ih h).2

end Steps

end Workbench

end GradientGraph
