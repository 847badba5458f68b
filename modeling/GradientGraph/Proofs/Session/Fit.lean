import GradientGraph.Proofs.Host.Offer

/-!
# What fits in a session of arrays

As long as every variable that is set keeps its shape, everything fits in a session of the
module of arrays: every formula its variable, and every stored handle what it stands for.
-/

set_option autoImplicit false

namespace GradientGraph

open GradientGraph.Graph World

section Selection

variable {K : Type} [Zero K] {m : Module} {c : Call K} {args : List (Object K)}

theorem OverloadSet.allApt_select {s : OverloadSet} (h : s.select? args = some c) :
    Param.AllApt c.body.params c.args := by
  obtain ⟨b, -, hcall⟩ := List.exists_of_findSome?_eq_some h
  obtain ⟨xs, hxs, rfl⟩ := Option.map_eq_some_iff.mp hcall
  exact Param.allApt_convertAll hxs

theorem Module.allApt_selectFunction {name : String} (h : m.selectFunction? name args = some c) :
    Param.AllApt c.body.params c.args := by
  obtain ⟨_, -, hc⟩ := Option.bind_eq_some_iff.mp h
  exact OverloadSet.allApt_select hc

theorem Module.allApt_selectMethod {receiver : Object K} {name : String}
    (h : m.selectMethod? receiver name args = some c) : Param.AllApt c.body.params c.args := by
  obtain ⟨_, -, h⟩ := Option.bind_eq_some_iff.mp h
  obtain ⟨_, -, hc⟩ := Option.bind_eq_some_iff.mp h
  exact OverloadSet.allApt_select hc

theorem Session.allApt_call {D : Type} {s : Session K D} {request : Request K}
    (h : s.call? request = some c) : Param.AllApt c.body.params c.args := by
  cases request with
  | call name args =>
    obtain ⟨os, -, h⟩ := Option.bind_eq_some_iff.mp h
    exact Module.allApt_selectFunction h
  | newInstance name args =>
    obtain ⟨os, -, h⟩ := Option.bind_eq_some_iff.mp h
    split at h
    · exact Module.allApt_selectFunction h
    · cases h
  | method o name args =>
    obtain ⟨o, -, h⟩ := Option.bind_eq_some_iff.mp h
    obtain ⟨os, -, h⟩ := Option.bind_eq_some_iff.mp h
    exact Module.allApt_selectMethod h
  | invoke o args =>
    obtain ⟨o, -, h⟩ := Option.bind_eq_some_iff.mp h
    obtain ⟨os, -, h⟩ := Option.bind_eq_some_iff.mp h
    exact Module.allApt_selectMethod h
  | binary name l r =>
    obtain ⟨l, -, h⟩ := Option.bind_eq_some_iff.mp h
    obtain ⟨r, -, h⟩ := Option.bind_eq_some_iff.mp h
    obtain h | ⟨-, h⟩ := Option.or_eq_some_iff.mp h <;> exact Module.allApt_selectMethod h
  | unary name o =>
    obtain ⟨o, -, h⟩ := Option.bind_eq_some_iff.mp h
    exact Module.allApt_selectMethod h
  | bare name => cases h
  | copy o => cases h

end Selection

/-- The dimensions of the derivatives that a pass which gives its own seeds leaves behind: as
high as the variable is large and as wide as the seed in a forward pass, and the other way
round in a reverse one. -/
inductive Pass.Spans {K D : Type} (g : Graph K D) : Pass → (NodeId → Nat × Nat) → Prop where
  | pushTangentAt (s : NodeId) : Spans g (.pushTangentAt s) fun n => (g.sizeAt n, g.sizeAt s)
  | pullGradientAt (t : NodeId) : Spans g (.pullGradientAt t) fun n => (g.sizeAt t, g.sizeAt n)

theorem Body.keeps_of_deed {K D : Type} [Zero K] [One K] [Add K] [Mul K] [MulAdd K] [Capacity K]
    [NatCast K] [Calculus K] [HostDerivative K D] {b : Body} {args : Param.Carriers K b.params}
    (g : Graph K D) (hliteral : ∀ n, b.deed args ≠ (.assignLiteral n : Deed D))
    (hformula : ∀ n, b.deed args ≠ (.assignFormula n : Deed D)) : b.Keeps g args := by
  cases b with
  | assignLiteral c => exact absurd rfl (hliteral args.1)
  | assignExpression c => exact absurd rfl (hformula args.1)
  | _ => trivial

section Worlds

variable {K D : Type} {w w' : World K D} {i : Instance K}

theorem Instance.Fits.only (h : i.Fits w) {j : Instance K} (hj : j ∈ Object.instancesOf [.inst i]) :
    j.Fits w := by
  obtain ⟨o, ho, hj⟩ := hj
  obtain rfl := List.mem_singleton.mp ho
  cases hj
  exact h

theorem Instance.Fits.sheds (h : i.Fits w) (hgraph : w.graph.Sheds w'.graph)
    (hprograms : w'.programs = w.programs)
    (hlive : ∀ n ∈ i.nodes, w'.graph.arena.contains n) : i.Fits w' := by
  cases i with
  | var c n =>
    obtain ⟨s, hs, hc⟩ := h
    exact ⟨s, (hgraph.shapes_eq (hlive n (List.mem_singleton.mpr rfl))).trans hs, hc⟩
  | operation c a =>
    obtain ⟨s, hs, hc⟩ := h
    refine ⟨s, hs.congr fun n hn t ht => ?_, hc⟩
    exact (hgraph.shapes_eq (hlive n (Formula.mem_nodes.mpr hn))).trans ht
  | program id =>
    change id < w'.programs.size
    rwa [hprograms]
  | bare => trivial

theorem World.Neat.after {α : Type} {H : Set (Formula K)} {Q : α → Set (Formula K)}
    {m : HostM K D α} {x : α} (hw : w.Neat H) (hhosts : Hosts H m Q) (htidy : TidyHost m)
    (hpreserves : w.Preserves w') (h : m w = some (x, w')) : w'.Neat (Q x ∪ H) where
  orderly := hhosts w x w' hw.orderly h
  confined := htidy ∅ w x w' hw.confined h
  fitted := hpreserves.graph.fitted hw.fitted

end Worlds

namespace Session

variable {K D : Type}

/-- What holds of a session of arrays between two steps. -/
structure Fit (s : Session K D) : Prop where
  module : s.module.Proper
  fitted : Fitted (shapes s.world.graph.value?) s.world.graph.formula?
  instances : ∀ i ∈ s.instances, i.Fits s.world

section Objects

variable {s s' : Session K D} {w : World K D}

theorem instances_keep (storeAs : Option String) (r : Reply K) :
    (s.keep storeAs r).instances ⊆ {i | r.object.Has i} ∪ s.instances := by
  cases storeAs with
  | none => exact Set.subset_union_right
  | some name =>
    rintro i ⟨o, ho, hi⟩
    obtain ⟨e, he, rfl⟩ := List.mem_map.mp ho
    rcases Table.mem_put he with heq | he
    · exact .inl (heq ▸ hi)
    · exact .inr ⟨_, List.mem_map_of_mem he, hi⟩

theorem instances_erase (name : String) :
    Object.instancesOf ((s.objects.erase name).map (·.2)) ⊆ s.instances := by
  rintro i ⟨o, ho, hi⟩
  obtain ⟨e, he, rfl⟩ := List.mem_map.mp ho
  exact ⟨_, List.mem_map_of_mem (Table.mem_erase he), hi⟩

theorem Fit.preserves (hs : s.Fit) (h : s.world.Preserves w) :
    ({ s with world := w } : Session K D).Fit :=
  ⟨hs.module, h.graph.fitted hs.fitted, fun i hi => (hs.instances i hi).preserves h⟩

theorem fit_of_sheds (hmodule : s'.module.Proper)
    (hw : Fitted (shapes w.graph.value?) w.graph.formula?)
    (hinstances : ∀ i ∈ s'.instances, i.Fits w) (hgraph : w.graph.Sheds s'.world.graph)
    (hprograms : s'.world.programs = w.programs) (hs' : s'.world.scene.Whole s'.nodes) :
    s'.Fit where
  module := hmodule
  fitted := hgraph.fitted hs' hw
  instances := by
    rintro i hi
    refine (hinstances i hi).sheds hgraph hprograms fun n hn => hs'.held n ?_
    obtain ⟨o, ho, hio⟩ := hi
    exact ⟨o, ho, Object.mem_nodes_of_has hio hn⟩

end Objects

end Session

section Calls

variable {K : Type} [Zero K] [One K] [Add K] [Mul K] [MulAdd K] [Capacity K] [NatCast K]
  [Calculus K] {H : Set (Formula K)} {w : World K (Mat K)}

theorem Call.serves_idle {m : Module} {c : Call K} {os : List (Object K)} (hm : m.Proper)
    (hw : w.Neat H) (hdeed : deedOf (some c) = (.nothing : Deed (Mat K)))
    (hc : m.Offers c.body ∧ c.instances ⊆ Object.instancesOf os)
    (hapt : Param.AllApt c.body.params c.args)
    (hos : ∀ i, i ∈ Object.instancesOf os → i.Fits w) (hH : Object.formulasOf os ⊆ H) :
    Delivers (Roomy K) w.Serves ((c.run : HostM K (Mat K) _) w) := by
  have hfits : c.Fits H w := {
    proper := hm _ hc.1
    apt := hapt
    instances := fun i hi => hos i (hc.2 hi)
    formulas := (Object.formulasOf_subset hc.2).trans hH
    keeps := Body.keeps_of_deed w.graph (fun n h => by cases hdeed.symm.trans h)
      fun n h => by cases hdeed.symm.trans h }
  refine (c.body.serves_run c.args hw hfits).of_room fun hroom => ⟨hroom, fun f x hpass => ?_⟩
  cases hdeed.symm.trans hpass

namespace Module

variable {m : Module} {c : Category} {n : NodeId}

theorem serves_callMethod (hm : m.Proper) (hw : w.Neat H) (name : String)
    (hn : (Instance.var c n).Fits w) : Delivers (Roomy K) w.Serves
      ((m.callMethod (.inst (.var c n)) name [] : HostM K (Mat K) _) w) := by
  have hdeed : deedOf (m.selectMethod? (.inst (.var c n) : Object K) name []) =
      (.nothing : Deed (Mat K)) := m.deedOf_method name
  simp only [callMethod]
  cases h : m.selectMethod? (.inst (.var c n) : Object K) name [] with
  | none => exact serves_pure (Reply.fits_error _)
  | some call =>
    rw [h] at hdeed
    exact call.serves_idle hm hw hdeed (selectMethod_cases h) (allApt_selectMethod h)
      (fun i => hn.only) (Object.formulasOf_variable c n)

theorem serves_call (hm : m.Proper) (hw : w.Neat H) (name : String)
    (hn : (Instance.var c n).Fits w) : Delivers (Roomy K) w.Serves
      ((m.call name [.inst (.var c n)] : HostM K (Mat K) _) w) := by
  have hdeed : deedOf (m.selectFunction? name [(.inst (.var c n) : Object K)]) =
      (.nothing : Deed (Mat K)) := m.deedOf_function name
  unfold call
  cases h : m.selectFunction? name [(.inst (.var c n) : Object K)] with
  | none => exact serves_pure (Reply.fits_error _)
  | some call =>
    rw [h] at hdeed
    exact call.serves_idle hm hw hdeed (selectFunction_cases h) (allApt_selectFunction h)
      (fun i => hn.only) (Object.formulasOf_variable c n)

end Module

namespace Session

theorem Tours.serves {m : Module} {os : List (Object K)} {x : HostM K (Mat K) _}
    (h : Tours m os x) (hm : m.Proper) (hw : w.Neat H)
    (hos : ∀ i, i ∈ Object.instancesOf os → i.Fits w) :
    Delivers (Roomy K) (fun r => w.Preserves r.2) (x w) := by
  induction h generalizing w H with
  | done => exact .some (.refl w)
  | @next name c n hmem x _ ih =>
    have hn : (Instance.var c n).Fits w := hos _ ⟨_, hmem, .self⟩
    have hreads := m.runs_callMethod (D := Mat K) (.inst (.var c n)) "__call__" []
    have hgives := m.runs_call (D := Mat K) "d" [.inst (.var c n)]
    refine (Module.serves_callMethod hm hw "__call__" hn).bind ?_
    rintro ⟨value, w₁⟩ hvalue hserves₁
    have hw₁ := hw.after (hreads.hosts (Object.formulasOf_variable c n)) hreads.tidyHost
      hserves₁.preserves hvalue
    refine (Module.serves_call hm hw₁ "d" (hn.preserves hserves₁.preserves)).bind ?_
    rintro ⟨derivative, w₂⟩ hderivative hserves₂
    have hw₂ := hw₁.after (hgives.hosts (Object.formulasOf_variable c n)) hgives.tidyHost
      hserves₂.preserves hderivative
    have hpreserves := hserves₁.preserves.trans hserves₂.preserves
    exact (ih hw₂ fun i hi => (hos i hi).preserves hpreserves).bind
      fun r _ h => .some (hpreserves.trans h)

variable {s s' : Session K (Mat K)} {request : Request K} {c : Call K}

theorem perform_of_call (h : s.call? request = some c) :
    s.perform request = .ok (c.run : HostM K (Mat K) _) ∧ s.module.Offers c.body ∧
      c.instances ⊆ s.instances := by
  cases hperform : s.perform request with
  | error f =>
    rw [call?_of_error hperform] at h
    cases h
  | ok m =>
    cases performs hperform with
    | call hc hbody hargs =>
      cases h.symm.trans hc
      exact ⟨rfl, hbody, hargs⟩
    | refused hc => cases h.symm.trans hc
    | bare hc => cases h.symm.trans hc
    | copy hc => cases h.symm.trans hc

/-- Whether a variable that the step sets keeps its shape. -/
def Keeps (s : Session K (Mat K)) : Step K → Prop
  | .make request _ => ∀ c, s.call? request = some c → c.body.Keeps s.world.graph c.args
  | _ => True

namespace Fit

theorem call (hs : s.Fit) (h : s.call? request = some c)
    (hkeeps : c.body.Keeps s.world.graph c.args) : c.Fits s.held s.world := by
  obtain ⟨-, hbody, hargs⟩ := perform_of_call h
  exact {
    proper := hs.module _ hbody
    apt := allApt_call h
    instances := fun i hi => hs.instances i (hargs hi)
    formulas := Object.formulasOf_subset hargs
    keeps := hkeeps }

theorem serves_perform (hs : s.Fit) (hw : s.world.Neat s.held) {storeAs : Option String}
    (hkeeps : s.Keeps (.make request storeAs)) {m : HostM K (Mat K) (Except Error (Reply K))}
    (h : s.perform request = .ok m) :
    Delivers (Roomy K ∧ Deed.OwnSeeds s.world.graph (deedOf (s.call? request) : Deed (Mat K)))
      s.world.Serves (m s.world) := by
  cases performs h with
  | @call c hc =>
    rw [hc]
    exact c.body.serves_run c.args hw (hs.call hc (hkeeps c hc))
  | refused hc e => exact serves_pure (Reply.fits_error e)
  | bare hc name => exact .some ⟨⟨.of_arena rfl, Nat.le_refl _⟩, Reply.fits_inst trivial⟩
  | copy hc ho =>
    refine serves_pure ?_
    rintro _ ⟨⟩ i hi
    exact hs.instances i (ho ⟨_, List.mem_singleton.mpr rfl, hi⟩)

/-- An operator answers as the dimensions of its operands ask for. -/
theorem answers (hs : s.Fit) (hw : s.world.Neat s.held) (hc : s.call? request = some c)
    {op : Operator K} (hop : c.body.operator? c.args = some op) :
    Delivers (Roomy K) (fun r => op.Answers s.world.graph r.1)
      ((c.run : HostM K (Mat K) _) s.world) ∧
    (Roomy K → ∃ x y, op.left.value? s.world.graph = some x ∧
      op.right.value? s.world.graph = some y) := by
  obtain ⟨b, args⟩ := c
  have hkeeps : b.Keeps s.world.graph args := by
    cases b with
    | binary => trivial
    | _ => cases hop
  obtain ⟨l, r, htakes, hl, hr⟩ := (hs.call hc hkeeps).operator hop
  constructor
  · rw [Call.run, Operator.run_eq hop]
    exact (op.answers_run htakes hl hr hw.orderly.graph hw.confined).map fun _ _ h => h.2
  · intro hroom
    obtain ⟨t, ht, -⟩ := hl.shaped
    obtain ⟨u, hu, -⟩ := hr.shaped
    obtain ⟨x, hx⟩ := ht.value.total hroom
    obtain ⟨y, hy⟩ := hu.value.total hroom
    exact ⟨x, y, hx, hy⟩

theorem evaluateOnce (hs : s.Fit) (hw : s.world.Neat s.held) {category : Category}
    {a : Formula K} (h : .operation category a ∈ s.instances) :
    Delivers (Roomy K) (fun r => r.1.shape.category = category)
      ((Graph.evaluateOnce a : GraphM K (Mat K) (Value K)) s.world.graph) := by
  obtain ⟨t, ht, rfl⟩ := hs.instances _ h
  obtain ⟨o, ho, hi⟩ := h
  obtain ⟨β, hβ⟩ := hw.orderly.graph.named
  have ha : a ∈ s.held := ⟨o, ho, Object.holds_iff.mpr ⟨_, hi⟩⟩
  rw [evaluateOnce_run (hβ a (.inl ha)).named (hw.confined.blank.forgot a)]
  exact ht.value.map fun v _ hv => congrArg Shape.category hv

theorem full_of_pass (hs : s.Fit) (hw : s.world.Neat s.held)
    (hwhole : s.world.scene.Whole s.nodes) (hyoung : s.world.graph.Young)
    (hc : s.call? request = some c) {id : ProgramId} {x : Pass}
    (hdeed : c.body.deed c.args = (.pass (.number id) x : Deed (Mat K)))
    {r : Reply K} {w : World K (Mat K)} (h : c.run s.world = some (.ok r, w))
    {δ : NodeId → Nat × Nat} (hx : x.Spans w.graph δ) :
    ∃ p plan, w.programs[id]? = some p ∧ p.plan? = some plan ∧
      Full δ plan.order w.graph.differential? := by
  obtain ⟨-, -, hargs⟩ := perform_of_call hc
  have hkeeps : c.body.Keeps s.world.graph c.args := Body.keeps_of_deed s.world.graph
    (fun n h => by cases hdeed.symm.trans h) fun n h => by cases hdeed.symm.trans h
  have hid := (hs.call hc hkeeps).pass hdeed
  obtain ⟨hdoes, -⟩ :=
    c.body.acts_run c.args (Object.nodesIn_subset hargs) s.world (.ok r) w hwhole h
  have hp : s.world.scene.program? (.number id) = some s.world.programs[id] :=
    Array.getElem?_eq_getElem hid
  obtain ⟨q, done, hrun, hq, hdone⟩ := hdoes.passes _ x _ hdeed hp
  have hrecent := (hw.orderly.programs _ (Array.getElem_mem hid)).recent hyoung
  obtain e | _ := done
  · cases hdone
  cases hx with
  | pushTangentAt n =>
    obtain ⟨plan, hplan, hfull⟩ := Program.full_of_pushTangentAt hrecent hw.orderly.graph.sound
      hw.confined.blank hw.fitted hrun
    exact ⟨q, plan, hq, hplan, hfull⟩
  | pullGradientAt n =>
    obtain ⟨plan, hplan, hfull⟩ := Program.full_of_pullGradientAt hrecent hw.orderly.graph.sound
      hw.confined.blank hw.fitted hrun
    exact ⟨q, plan, hq, hplan, hfull⟩

variable [BEq K]

/-- Every step comes to its end, unless it is a pass that takes what variables hold for
seeds. -/
theorem exists_step (hs : s.Fit) (hw : s.world.Neat s.held) {x : Step K} (hx : s.Keeps x)
    (hown : Deed.OwnSeeds s.world.graph (s.deed x : Deed (Mat K))) (hroom : Roomy K) :
    ∃ r, s.step x = some r := by
  cases x with
  | make request storeAs =>
    simp only [step]
    cases hperform : s.perform request with
    | error f => exact ⟨_, rfl⟩
    | ok m =>
      have hserves := hs.serves_perform hw hx hperform
      obtain ⟨⟨reply, w⟩, hrun⟩ := hserves.total ⟨hroom, hown⟩
      simp only [hrun]
      cases reply <;> exact ⟨_, rfl⟩
  | drop name =>
    simp only [step]
    split <;> exact ⟨_, rfl⟩
  | node o noteAs =>
    simp only [step]
    split <;> exact ⟨_, rfl⟩
  | dump =>
    have htour := tours (D := Mat K) s.module (List.Subset.refl (s.objects.map (·.2)))
    obtain ⟨⟨vs, w⟩, hrun⟩ := (htour.serves hs.module hw hs.instances).total hroom
    simp only [step, hrun]
    exact ⟨_, rfl⟩
  | _ => exact ⟨_, rfl⟩

theorem neat (hs : s.Fit) (h : s.Reachable) : s.world.Neat s.held :=
  ⟨h.orderly, h.confined, hs.fitted⟩

theorem step (hs : s.Fit) (hreach : s.Reachable) {x : Step K} (hx : s.Keeps x)
    {r : Except Failure (Answer K)} (h : s.step x = some (s', r)) : s'.Fit := by
  have hwhole := (step_leads hreach.whole h).2
  have hw := hs.neat hreach
  cases steps h with
  | refused hm hrun =>
    obtain ⟨hpreserves, -⟩ := (hs.serves_perform hw hx hm).sound _ hrun
    exact hs.preserves hpreserves
  | @made request m hm reply w hrun storeAs =>
    obtain ⟨hpreserves, hfits⟩ := (hs.serves_perform hw hx hm).sound _ hrun
    have hmade : ({ s with world := w } : Session K (Mat K)).Fit := hs.preserves hpreserves
    refine fit_of_sheds (w := w) ?_ hmade.fitted ?_
      (sheds_keep (s := { s with world := w }) storeAs reply) ?_ hwhole
    · cases storeAs <;> exact hs.module
    · rintro i hi
      obtain hi | hi := instances_keep storeAs reply hi
      · exact hfits reply rfl i hi
      · exact hmade.instances i hi
    · cases storeAs <;> rfl
  | @dropped name o =>
    exact fit_of_sheds hs.module hs.fitted
      (fun i hi => hs.instances i (instances_erase name hi)) (Graph.sheds_release ..) rfl hwhole
  | dumped hrun =>
    have htour := tours (D := Mat K) s.module (List.Subset.refl (s.objects.map (·.2)))
    exact hs.preserves ((htour.serves hs.module hw hs.instances).sound _ hrun)
  | defined name label params =>
    exact ⟨hs.module.define name trivial, hs.fitted, hs.instances⟩
  | definedMethod className name label params =>
    exact ⟨hs.module.defineMethod className name trivial, hs.fitted, hs.instances⟩
  | addedClass name bases doc => exact ⟨hs.module.addClass name bases doc, hs.fitted, hs.instances⟩
  | documented name doc => exact ⟨hs.module.setDoc name doc, hs.fitted, hs.instances⟩
  | unnamed => exact hs
  | asked => exact ⟨hs.module, hs.fitted, hs.instances⟩

end Fit

variable [BEq K]

/-- The sessions of the module of arrays in which every variable that was set kept its
shape. -/
inductive Steady : Session K (Mat K) → Prop where
  | start : Steady { module := arrayModule }
  | step {s s' : Session K (Mat K)} {r : Except Failure (Answer K)} (x : Step K)
    (hs : Steady s) (hx : s.Keeps x) (h : s.step x = some (s', r)) : Steady s'

theorem Steady.reachable (h : s.Steady) : s.Reachable := by
  induction h with
  | start => exact .start _
  | step x _ _ h ih => exact ih.step x h

theorem Steady.fit (h : s.Steady) : s.Fit := by
  induction h with
  | start =>
    refine ⟨proper_arrayModule, fun n a ha => (by cases ha), ?_⟩
    rintro i ⟨o, ho, -⟩
    cases ho
  | step x hs hx h ih => exact ih.step hs.reachable hx h

end Session

end Calls

end GradientGraph
