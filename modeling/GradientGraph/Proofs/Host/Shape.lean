import GradientGraph.Proofs.Host.Acts
import GradientGraph.Proofs.Host.Operator
import GradientGraph.Proofs.Program.Shape

/-!
# Shapes in calls from a host

A handle tells the category of what it stands for. Where every formula fits its variable
and every handle what it stands for, no function meets arrays that do not fit, unless it is a
pass over derivatives that the host gave. Everything fits afterwards, if a variable that is
set keeps its shape.
-/

set_option autoImplicit false

namespace GradientGraph

open GradientGraph.Graph World

def Param.Apt {K : Type} : (p : Param) → p.Carrier K → Prop
  | .value c, v => v.shape.category = c
  | _, _ => True

def Param.AllApt {K : Type} : (ps : List Param) → Param.Carriers K ps → Prop
  | [], _ => True
  | p :: ps, (x, xs) => p.Apt x ∧ AllApt ps xs

section Conversion

variable {K : Type} [Zero K]

theorem Object.category_toValue {c : Category} {o : Object K} {v : Value K}
    (h : o.toValue? c = some v) : v.shape.category = c := by
  cases c with
  | scalar =>
    cases o with
    | float x =>
      cases h
      rfl
    | _ => cases h
  | vector =>
    cases o with
    | array a =>
      simp only [toValue?, Tensor.toVector?] at h
      split at h <;> cases h <;> rfl
    | _ => cases h
  | matrix =>
    cases o with
    | array a =>
      simp only [toValue?, Tensor.toMatrix?] at h
      split at h <;> cases h <;> rfl
    | _ => cases h

namespace Param

theorem apt_convert {p : Param} {o : Object K} {x : p.Carrier K} (h : p.convert? o = some x) :
    p.Apt x := by
  cases p with
  | value c => exact Object.category_toValue h
  | _ => trivial

theorem allApt_convertAll {ps : List Param} {os : List (Object K)} {xs : Carriers K ps}
    (h : convertAll? ps os = some xs) : AllApt ps xs := by
  induction ps generalizing os with
  | nil => trivial
  | cons p ps ih =>
    cases os with
    | nil => cases h
    | cons o os =>
      obtain ⟨x, hx, h⟩ := Option.bind_eq_some_iff.mp h
      obtain ⟨ys, hys, h⟩ := Option.bind_eq_some_iff.mp h
      cases h
      exact ⟨apt_convert hx, ih hys⟩

end Param

end Conversion

section Worlds

variable {K D : Type} {w w' : World K D} {i : Instance K}

def Instance.Fits (w : World K D) : Instance K → Prop
  | .var c n => ∃ s, shapes w.graph.value? n = some s ∧ s.category = c
  | .operation c a => ∃ s, a.expression.Shaped (shapes w.graph.value?) s ∧ s.category = c
  | .program id => id < w.programs.size
  | .bare _ _ => True

structure World.Preserves (w w' : World K D) : Prop where
  graph : w.graph.Preserves w'.graph
  programs : w.programs.size ≤ w'.programs.size

theorem World.Preserves.refl (w : World K D) : w.Preserves w := ⟨.refl _, Nat.le_refl _⟩

theorem World.Preserves.trans {w'' : World K D} (h : w.Preserves w') (h' : w'.Preserves w'') :
    w.Preserves w'' := ⟨h.graph.trans h'.graph, Nat.le_trans h.programs h'.programs⟩

theorem Instance.Fits.preserves (h : i.Fits w) (hw : w.Preserves w') : i.Fits w' := by
  cases i with
  | var c n =>
    obtain ⟨s, hs, hc⟩ := h
    exact ⟨s, hw.graph.kept n s hs, hc⟩
  | operation c a =>
    obtain ⟨s, hs, hc⟩ := h
    exact ⟨s, hs.congr fun n _ => hw.graph.kept n, hc⟩
  | program id => exact Nat.lt_of_lt_of_le h hw.programs
  | bare => trivial

def Reply.Fits (w : World K D) (r : Except Error (Reply K)) : Prop :=
  ∀ reply, r = .ok reply → ∀ i, reply.object.Has i → i.Fits w

theorem Reply.fits_error (e : Error) : Reply.Fits w (.error e) := fun _ h => by cases h

theorem Reply.fits_none {o : Object K} {displaced : List NodeId} (ho : ∀ i, ¬o.Has i) :
    Reply.Fits w (.ok { object := o, displaced }) := by
  rintro _ ⟨⟩ i hi
  exact absurd hi (ho i)

theorem Reply.fits_inst (h : i.Fits w) : Reply.Fits w (Body.plain (.inst i)) := by
  rintro _ ⟨⟩ _ ⟨⟩
  exact h

theorem Reply.fits_unitReply (r : Except Error Unit) : Reply.Fits w (Body.unitReply r) := by
  cases r with
  | error e => exact fits_error e
  | ok _ => exact fits_none fun i hi => by cases hi

/-- Whether everything goes on to fit, and the reply fits as well. -/
structure World.Serves (w : World K D) (r : Except Error (Reply K) × World K D) : Prop where
  preserves : w.Preserves r.2
  fits : Reply.Fits r.2 r.1

structure World.Neat (H : Set (Formula K)) (w : World K D) : Prop where
  orderly : w.Orderly H
  confined : w.graph.Confined ∅
  fitted : Fitted (shapes w.graph.value?) w.graph.formula?

section Rules

variable {room : Prop}

theorem serves_pure {r : Except Error (Reply K)} (hr : Reply.Fits w r) :
    Delivers room w.Serves ((pure r : HostM K D (Except Error (Reply K))) w) :=
  .some ⟨.refl w, hr⟩

theorem serves_onGraph {m : GraphM K D (Except Error (Reply K))}
    (hm : Delivers room (fun r => w.graph.Preserves r.2 ∧ Reply.Fits { w with graph := r.2 } r.1)
      (m w.graph)) : Delivers room w.Serves (onGraph m w) :=
  hm.map fun _ _ h => ⟨⟨h.1, Nat.le_refl _⟩, h.2⟩

theorem onProgram_run {α : Type} {id : ProgramId} {p : Program D}
    {m : Program D → GraphM K D (Program D × α)} (hp : w.programs[id]? = some p) :
    onProgram id m w = (m p w.graph).map fun r =>
      (r.1.2, ⟨r.2, w.programs.setIfInBounds id r.1.1⟩) := by
  have hrun : onProgram id m w =
      ((m p w.graph).map fun r => (r.1, { w with graph := r.2 })).bind fun r =>
        some (r.1.2, { r.2 with programs := r.2.programs.setIfInBounds id r.1.1 }) := by
    unfold onProgram
    simp only [bind, StateT.bind, get, getThe, MonadStateOf.get, StateT.get, pure, Option.bind_some,
      hp]
    rfl
  rw [hrun, Option.bind_map, Option.map_eq_bind]
  rfl

theorem serves_onProgram {id : ProgramId} (hid : id < w.programs.size)
    {m : Program D → GraphM K D (Program D × Except Error (Reply K))}
    (hm : ∀ p ∈ w.programs, Delivers room (fun r => w.graph.Preserves r.2 ∧
      ∀ w' : World K D, Reply.Fits w' r.1.2) (m p w.graph)) :
    Delivers room w.Serves (onProgram id m w) := by
  rw [onProgram_run (Array.getElem?_eq_getElem hid)]
  refine (hm _ (Array.getElem_mem hid)).map fun r _ h => ⟨⟨h.1, ?_⟩, h.2 _⟩
  rw [Array.size_setIfInBounds]

theorem serves_addProgram (p : Except Error (Program D)) :
    Delivers room w.Serves ((Body.addProgram p : HostM K D (Except Error (Reply K))) w) := by
  cases p with
  | error e => exact serves_pure (Reply.fits_error e)
  | ok p =>
    have hsize : (w.programs.push p).size = w.programs.size + 1 := Array.size_push ..
    refine .some ⟨⟨.refl _, ?_⟩, Reply.fits_inst ?_⟩
    · exact Nat.le_of_lt (Nat.lt_of_lt_of_eq (Nat.lt_succ_self _) hsize.symm)
    · exact Nat.lt_of_lt_of_eq (Nat.lt_succ_self _) hsize.symm

end Rules

end Worlds

/-- Whether the function takes what it needs: an operator on two operands makes something of
those categories, and checks whether they fit unless all of them do, and derivatives are
given as matrices. -/
def Body.Proper : Body → Prop
  | .binary k l r c _ name => k.category l r = some c ∧ (name = none → ∀ s t, k.Joins s t)
  | .setDerivative _ d => d = .matrix
  | _ => True

/-- Whether the deed is no pass, or evaluates, or gives the seed of its pass itself, before any
generation or version can have come round. Other passes start from derivatives of whatever
dimensions the host gave. -/
def Deed.OwnSeeds {K D : Type} (g : Graph K D) (deed : Deed D) : Prop :=
  ∀ f x, deed = .pass f x → x = .evaluate ∨ x.Seeded ∧ g.Young

section Calls

variable {K : Type} [Zero K] [One K] [Add K] [Mul K] [MulAdd K] [Capacity K] [NatCast K]
  [Calculus K]

def Body.Keeps {D : Type} (g : Graph K D) : (b : Body) → Param.Carriers K b.params → Prop
  | .assignLiteral _, (n, v, ()) => shapes g.value? n = some v.shape
  | .assignExpression _, (n, x, ()) =>
    ∀ v, x.value? g = some v → shapes g.value? n = some v.shape
  | _, _ => True

/-- A call whose arguments fit, and that keeps the shape of a variable that it sets. -/
structure Call.Fits {D : Type} (H : Set (Formula K)) (w : World K D) (c : Call K) : Prop where
  proper : c.body.Proper
  apt : Param.AllApt c.body.params c.args
  instances : ∀ i, i ∈ c.instances → i.Fits w
  formulas : Object.formulasOf (Param.toObjects c.body.params c.args) ⊆ H
  keeps : c.body.Keeps w.graph c.args

section Operations

variable {H : Set (Formula K)} {D : Type} {w : World K D} {b : Body}
  {args : Param.Carriers K b.params}

theorem Call.Fits.variable (h : Call.Fits H w ⟨b, args⟩) {c : Category} {n : NodeId}
    (hn : Param.toObject (.variableOf c) n ∈ Param.toObjects b.params args) :
    ∃ s, shapes w.graph.value? n = some s ∧ s.category = c :=
  h.instances (.var c n) ⟨_, hn, .self⟩

theorem Call.Fits.operand (h : Call.Fits H w ⟨b, args⟩) {c : Category} {x : Operand K}
    (hx : Param.toObject (.expression c) x ∈ Param.toObjects b.params args) :
    (Side.operand x).Fits H w.graph c := by
  refine ⟨Body.operand_subset h.formulas hx, ?_⟩
  cases x with
  | cell n => exact h.instances (.var c n) ⟨_, hx, .self⟩
  | term a => exact h.instances (.operation c a) ⟨_, hx, .self⟩

theorem Call.Fits.program (h : Call.Fits H w ⟨b, args⟩) {id : ProgramId}
    (hid : Param.toObject .program id ∈ Param.toObjects b.params args) :
    id < w.programs.size :=
  h.instances (.program id) ⟨_, hid, .self⟩

theorem Call.Fits.operator (h : Call.Fits H w ⟨b, args⟩) {op : Operator K}
    (hop : b.operator? args = some op) :
    ∃ c d, op.Takes c d ∧ op.left.Fits H w.graph c ∧ op.right.Fits H w.graph d := by
  cases b with
  | binary k c d result operands name =>
    refine ⟨c, d, ?_⟩
    cases operands with
    | expressions =>
      obtain ⟨x, y, _⟩ := args
      cases hop
      exact ⟨⟨h.proper.1, h.proper.2⟩, h.operand (List.mem_cons_self ..),
        h.operand (List.mem_cons_of_mem _ (List.mem_cons_self ..))⟩
    | literalRight =>
      obtain ⟨x, v, _⟩ := args
      cases hop
      exact ⟨⟨h.proper.1, h.proper.2⟩, h.operand (List.mem_cons_self ..),
        Side.fits_literal h.apt.2.1⟩
    | literalLeft =>
      obtain ⟨v, y, _⟩ := args
      cases hop
      exact ⟨⟨h.proper.1, h.proper.2⟩, Side.fits_literal h.apt.1,
        h.operand (List.mem_cons_of_mem _ (List.mem_cons_self ..))⟩
    | reflected =>
      obtain ⟨y, x, _⟩ := args
      cases hop
      exact ⟨⟨h.proper.1, h.proper.2⟩,
        h.operand (List.mem_cons_of_mem _ (List.mem_cons_self ..)),
        h.operand (List.mem_cons_self ..)⟩
    | reflectedLiteral =>
      obtain ⟨y, v, _⟩ := args
      cases hop
      exact ⟨⟨h.proper.1, h.proper.2⟩, Side.fits_literal h.apt.2.1,
        h.operand (List.mem_cons_self ..)⟩
  | _ => cases hop

theorem Call.Fits.pass [HostDerivative K D] (h : Call.Fits H w ⟨b, args⟩) {id : ProgramId}
    {x : Pass} (hdeed : b.deed args = (.pass (.number id) x : Deed D)) :
    id < w.programs.size := by
  cases b with
  | evaluate =>
    obtain ⟨id, _⟩ := args
    cases hdeed
    exact h.program (List.mem_cons_self ..)
  | pushTangent =>
    obtain ⟨id, _⟩ := args
    cases hdeed
    exact h.program (List.mem_cons_self ..)
  | pushTangentAt =>
    obtain ⟨id, n, _⟩ := args
    cases hdeed
    exact h.program (List.mem_cons_self ..)
  | pullGradient =>
    obtain ⟨id, _⟩ := args
    cases hdeed
    exact h.program (List.mem_cons_self ..)
  | pullGradientAt =>
    obtain ⟨id, n, _⟩ := args
    cases hdeed
    exact h.program (List.mem_cons_self ..)
  | setDerivative c d =>
    obtain ⟨n, v, _⟩ := args
    simp only [Body.deed] at hdeed
    cases hv : (HostDerivative.ofValue v : Option D) <;> rw [hv] at hdeed <;> cases hdeed
  | _ => cases hdeed

end Operations

end Calls

namespace Body

variable {K : Type} {H : Set (Formula K)} {w : World K (Mat K)} {c : Category}

section Literals

theorem serves_newVariable {room : Prop} {v : Value K} (hw : w.Neat H)
    (hv : v.shape.category = c) : Delivers room w.Serves
      ((onGraph do return plain (.inst (.var c (← newVariable v))) :
        HostM K (Mat K) (Except Error (Reply K))) w) := by
  obtain ⟨hpreserves, hnew⟩ := preserves_newVariable (g := w.graph) hw.confined.packed
    (v := v) rfl
  exact serves_onGraph (.some ⟨hpreserves, Reply.fits_inst ⟨_, hnew, hv⟩⟩)

theorem serves_assignLiteral {room : Prop} {n : NodeId} {v : Value K}
    (hn : shapes w.graph.value? n = some v.shape) :
    Delivers room w.Serves ((onGraph do
      return .ok { object := .none, displaced := ← Graph.assignLiteral n v } :
        HostM K (Mat K) (Except Error (Reply K))) w) := by
  have hpreserves (displaced : List NodeId) (g : Graph K (Mat K)) :
      Graph.assignLiteral n v w.graph = some (displaced, g) → w.graph.Preserves g :=
    preserves_assignLiteral hn
  refine serves_onGraph ?_
  rw [run_bind, assignLiteral_run]
  refine .some ⟨hpreserves _ _ (assignLiteral_run n v w.graph), Reply.fits_none fun i hi => ?_⟩
  cases hi

variable [Zero K]

theorem serves_setDerivative {room : Prop} {n : NodeId} {v : Value K}
    (hv : v.shape.category = .matrix) :
    Delivers room w.Serves ((onGraph do
      giveDerivative n (← ofOption (HostDerivative.ofValue v))
      return plain .none : HostM K (Mat K) (Except Error (Reply K))) w) := by
  obtain ⟨d, hd⟩ : ∃ d : Mat K, HostDerivative.ofValue v = some d := by
    simp only [HostDerivative.ofValue]
    cases hs : v.shape with
    | matrix r c => exact ⟨_, rfl⟩
    | _ =>
      rw [hs] at hv
      cases hv
  rw [hd]
  have hgives : OnlyDerivatives w.graph
      ({ w.graph with nextStamp := w.graph.nextStamp + 1 }.setDerivative n
        (some ⟨w.graph.nextStamp, d⟩)) :=
    ⟨statics_setDerivative _ n _, rfl, rfl, rfl, Nat.le_succ _⟩
  exact serves_onGraph (.some ⟨hgives.preserves, Reply.fits_none fun i hi => by cases hi⟩)

theorem serves_cell {room : Prop} {n : NodeId} {s : Shape}
    (hn : shapes w.graph.value? n = some s) :
    Delivers room w.Serves ((onGraph do return plain (.ofValue (← cell n).value) :
      HostM K (Mat K) (Except Error (Reply K))) w) := by
  obtain ⟨x, hx, -⟩ := node?_of_shapes hn
  have hcell : (cell n : GraphM K (Mat K) _) w.graph = some (x.content, w.graph) := by
    rw [run_cell, Arena.content?, hx]
    rfl
  refine serves_onGraph ?_
  rw [run_bind, hcell]
  exact .some ⟨.refl _, Reply.fits_none fun _ => Param.has_ofValue _⟩

end Literals

variable [Zero K] [One K] [Add K] [Mul K] [MulAdd K] [Capacity K] [NatCast K] [Calculus K]
  {x : Operand K} {s : Shape}

theorem serves_newComputed (hw : w.Neat H) (hx : (Side.operand x).Fits H w.graph c) :
    Delivers (Roomy K) w.Serves ((onGraph do
      let e ← formulaOf x
      return plain (.inst (.var c (← Graph.newComputed e))) :
        HostM K (Mat K) (Except Error (Reply K))) w) := by
  obtain ⟨hx, s, hs, rfl⟩ := hx
  refine serves_onGraph (((Side.formula_run hw.orderly.graph hx hs).of_room
    fun _ => trivial).bind ?_)
  rintro ⟨e, g⟩ - ⟨horderly, hrelabels, he, -⟩
  obtain ⟨β, hβ⟩ := horderly.named
  have hg := hrelabels.confined hw.confined
  rw [← hrelabels.value?_eq] at he
  exact (delivers_newComputed (hβ e (.inl (.inl rfl))).named hg.blank hg.packed he).bind
    fun r _ h => .some ⟨hrelabels.preserves.trans h.1, Reply.fits_inst ⟨s, h.2, rfl⟩⟩

theorem serves_assignExpression {n : NodeId} (hw : w.Neat H)
    (hx : (Side.operand x).Fits H w.graph c)
    (hn : ∀ v, x.value? w.graph = some v → shapes w.graph.value? n = some v.shape) :
    Delivers (Roomy K) w.Serves ((onGraph do
      let e ← formulaOf x
      return .ok { object := .none, displaced := ← Graph.assignFormula n e } :
        HostM K (Mat K) (Except Error (Reply K))) w) := by
  obtain ⟨hx, s, hs, rfl⟩ := hx
  refine serves_onGraph (((Side.formula_run hw.orderly.graph hx hs).of_room
    fun _ => trivial).bind ?_)
  rintro ⟨e, g⟩ - ⟨horderly, hrelabels, he, hv⟩
  obtain ⟨β, hβ⟩ := horderly.named
  have hg := hrelabels.confined hw.confined
  have hkeeps (v : Value K) (h : e.expression.valueUnder g.value? = some v) :
      shapes g.value? n = some v.shape := by
    rw [hrelabels.value?_eq] at h ⊢
    exact hn v (hv.symm.trans h)
  rw [← hrelabels.value?_eq] at he
  exact (delivers_assignFormula (hβ e (.inl (.inl rfl))).named hg.blank he hkeeps).bind
    fun r _ h => .some ⟨hrelabels.preserves.trans h, Reply.fits_none fun i hi => by cases hi⟩

theorem serves_unary {k : UnaryKernel} (hw : w.Neat H)
    (hx : (Side.operand x).Fits H w.graph c) : Delivers (Roomy K) w.Serves ((onGraph do
      let e ← formulaOf x
      return plain (.inst (.operation (k.category c) (← operation (.unary k e)))) :
        HostM K (Mat K) (Except Error (Reply K))) w) := by
  obtain ⟨hx, s, hs, rfl⟩ := hx
  refine serves_onGraph (((Side.formula_run hw.orderly.graph hx hs).of_room
    fun _ => trivial).bind ?_)
  rintro ⟨e, g⟩ - ⟨-, hrelabels, he, -⟩
  rw [← hrelabels.value?_eq] at he
  have hmade : g.Relabels { g with nextLabel := g.nextLabel + 1 } := rfl
  exact .some ⟨(hrelabels.trans hmade).preserves,
    Reply.fits_inst ⟨_, .shared (.unary he), k.category_shape s⟩⟩

theorem serves_operator {op : Operator K} {d : Category} (hw : w.Neat H) (hop : op.Takes c d)
    (hl : op.left.Fits H w.graph c) (hr : op.right.Fits H w.graph d) :
    Delivers (Roomy K) w.Serves
      ((onGraph op.run : HostM K (Mat K) (Except Error (Reply K))) w) := by
  refine serves_onGraph ((op.answers_run hop hl hr hw.orderly.graph hw.confined).imp ?_)
  rintro ⟨r, g⟩ - ⟨hrelabels, hanswers⟩
  refine ⟨hrelabels.preserves, ?_⟩
  cases hanswers with
  | fits _ ha hu => exact Reply.fits_inst ⟨_, hrelabels.value?_eq ▸ ha, hu⟩
  | refused => exact Reply.fits_error _

theorem serves_pass (x : Pass) {id : ProgramId} (hw : w.Neat H) (hid : id < w.programs.size) :
    Delivers (Roomy K ∧ Deed.OwnSeeds w.graph (.pass (.number id) x : Deed (Mat K))) w.Serves
      ((onProgram id fun p => do
        let (p, r) ← x.run p
        return (p, unitReply r) : HostM K (Mat K) (Except Error (Reply K))) w) := by
  have hsound := hw.orderly.graph.sound
  have hblank := hw.confined.blank
  refine serves_onProgram hid fun p hp => ?_
  have hrun : Delivers (Roomy K ∧ Deed.OwnSeeds w.graph (.pass (.number id) x : Deed (Mat K)))
      (fun r => w.graph.Preserves r.2) (x.run p w.graph) := by
    constructor
    · rintro ⟨⟨q, r⟩, g⟩ h
      obtain ⟨hv, hf⟩ := Program.shapes_run hsound hblank hw.fitted h
      exact .of_same hv hf
    · rintro ⟨hroom, hown⟩
      refine Program.exists_run hsound hblank hw.fitted ?_ hroom
      exact (hown _ x rfl).imp_right fun ⟨hx, hyoung⟩ =>
        ⟨hx, (hw.orderly.programs p hp).recent hyoung⟩
  exact hrun.bind fun r _ h => .some ⟨h, fun _ => Reply.fits_unitReply _⟩

/-- No function meets arrays that do not fit, but a pass that takes what the variables hold
for seeds. -/
theorem serves_run (b : Body) (args : Param.Carriers K b.params) (hw : w.Neat H)
    (hc : Call.Fits H w ⟨b, args⟩) :
    Delivers (Roomy K ∧ Deed.OwnSeeds w.graph (b.deed args : Deed (Mat K))) w.Serves
      ((b.run args : HostM K (Mat K) (Except Error (Reply K))) w) := by
  cases b with
  | newDefault c => exact serves_newVariable hw (by cases c <;> rfl)
  | newLiteral c => exact serves_newVariable hw hc.apt.1
  | newComputed c =>
    obtain ⟨x, _⟩ := args
    exact (serves_newComputed hw (hc.operand (List.mem_cons_self ..))).of_room And.left
  | value c =>
    obtain ⟨n, _⟩ := args
    obtain ⟨s, hs, -⟩ := hc.variable (List.mem_cons_self ..)
    exact serves_cell hs
  | assignLiteral c =>
    obtain ⟨n, v, _⟩ := args
    exact serves_assignLiteral hc.keeps
  | assignExpression c =>
    obtain ⟨n, x, _⟩ := args
    have hx := hc.operand (x := x) (List.mem_cons_of_mem _ (List.mem_cons_self ..))
    exact (serves_assignExpression hw hx hc.keeps).of_room And.left
  | setDerivative c d =>
    obtain ⟨n, v, _⟩ := args
    have hd : d = .matrix := hc.proper
    exact serves_setDerivative (hc.apt.2.1.trans hd)
  | derivative c =>
    exact serves_onGraph (.some ⟨.refl _, Reply.fits_none fun _ => Param.has_ofValue _⟩)
  | unary k c =>
    obtain ⟨x, _⟩ := args
    exact (serves_unary hw (hc.operand (List.mem_cons_self ..))).of_room And.left
  | binary k l r c operands name =>
    obtain ⟨op, hop⟩ : ∃ op, (binary k l r c operands name).operator? args = some op := by
      cases operands <;> exact ⟨_, rfl⟩
    obtain ⟨c, d, htakes, hl, hr⟩ := hc.operator hop
    rw [Operator.run_eq hop]
    exact (serves_operator hw htakes hl hr).of_room And.left
  | newProgram => exact serves_addProgram _
  | newBoundedProgram => exact serves_addProgram _
  | compile =>
    exact serves_onProgram (hc.program (List.mem_cons_self ..)) fun p _ =>
      .some ⟨.refl _, fun _ => Reply.fits_unitReply _⟩
  | compiled =>
    exact serves_onProgram (hc.program (List.mem_cons_self ..)) fun p _ =>
      .some ⟨.refl _, fun _ => Reply.fits_none fun i hi => by cases hi⟩
  | evaluate => exact serves_pass .evaluate hw (hc.program (List.mem_cons_self ..))
  | pushTangent => exact serves_pass .pushTangent hw (hc.program (List.mem_cons_self ..))
  | pushTangentAt =>
    exact serves_pass (.pushTangentAt args.2.1) hw (hc.program (List.mem_cons_self ..))
  | pullGradient => exact serves_pass .pullGradient hw (hc.program (List.mem_cons_self ..))
  | pullGradientAt =>
    exact serves_pass (.pullGradientAt args.2.1) hw (hc.program (List.mem_cons_self ..))
  | programText =>
    exact serves_onProgram (hc.program (List.mem_cons_self ..)) fun p _ =>
      .some ⟨.refl _, fun _ => Reply.fits_none fun i hi => by cases hi⟩
  | echo label params =>
    rw [run]
    split
    · exact serves_pure (Reply.fits_error _)
    · refine serves_pure ?_
      rintro _ ⟨⟩ i (_ | ⟨hmem, ho⟩)
      obtain rfl | hmem := List.mem_cons.mp hmem
      · cases ho
      · exact hc.instances i ⟨_, hmem, ho⟩

end Body

end GradientGraph
