import GradientGraph.Proofs.Host.Held

/-!
# How requests and steps are carried out

A request runs a function of the module on arguments that the stored objects have in them,
or it is refused at once, or it makes a bare instance or hands an object back. A step carries
a request out, drops an object, reads the variables, adds to the module, or only asks. What
holds of all requests and steps is shown along these ways.
-/

set_option autoImplicit false

namespace GradientGraph

theorem toOption_bind_of_error {ε α β γ : Type} {x : Except ε α} {f : α → Except ε β}
    {k : α → Option γ} {e : ε} (hk : ∀ a, f a = .error e → k a = none)
    (h : (x >>= f) = .error e) : (x.toOption >>= k) = none := by
  cases x with
  | error e => rfl
  | ok a => exact hk a h

inductive Module.Offers (m : Module) (b : Body) : Prop where
  | function {name : String} {s : OverloadSet} (hs : m.functions.find? name = some s)
    (hb : b ∈ s.bodies)
  | method {className name : String} {c : ClassInfo} {s : OverloadSet}
    (hc : m.classes.find? className = some c) (hs : c.methods.find? name = some s)
    (hb : b ∈ s.bodies)

section Selection

variable {K : Type} [Zero K] {m : Module} {c : Call K} {args : List (Object K)}

def Call.instances (c : Call K) : Set (Instance K) :=
  Object.instancesOf (Param.toObjects c.body.params c.args)

theorem OverloadSet.select_cases {s : OverloadSet} (h : s.select? args = some c) :
    c.body ∈ s.bodies ∧ c.instances ⊆ Object.instancesOf args := by
  obtain ⟨b, hb, hcall⟩ := List.exists_of_findSome?_eq_some h
  obtain ⟨xs, hxs, rfl⟩ := Option.map_eq_some_iff.mp hcall
  exact ⟨hb, Param.instancesOf_convertAll hxs⟩

namespace Module

theorem selectFunction_cases {name : String} (h : m.selectFunction? name args = some c) :
    m.Offers c.body ∧ c.instances ⊆ Object.instancesOf args := by
  obtain ⟨s, hs, hc⟩ := Option.bind_eq_some_iff.mp h
  obtain ⟨hb, hargs⟩ := OverloadSet.select_cases hc
  exact ⟨.function hs hb, hargs⟩

theorem selectMethod_cases {receiver : Object K} {name : String}
    (h : m.selectMethod? receiver name args = some c) :
    m.Offers c.body ∧ c.instances ⊆ Object.instancesOf (receiver :: args) := by
  obtain ⟨i, -, h⟩ := Option.bind_eq_some_iff.mp h
  obtain ⟨s, hs, hc⟩ := Option.bind_eq_some_iff.mp h
  obtain ⟨className, -, hclass⟩ := List.exists_of_findSome?_eq_some hs
  obtain ⟨info, hinfo, hmethod⟩ := Option.bind_eq_some_iff.mp hclass
  obtain ⟨hb, hargs⟩ := OverloadSet.select_cases hc
  exact ⟨.method hinfo hmethod hb, hargs⟩

end Module

end Selection

namespace Module

variable {K D : Type} [Zero K] [One K] [Add K] [Mul K] [MulAdd K] [Capacity K] [NatCast K]
  [Calculus K] [Differential K D] [HostDerivative K D] {m : Module} {os ps : List (Object K)}

/-- How a call is carried out that was looked up for some objects: it runs on what they have
in them, or there is none and that is an error. -/
inductive Runs (m : Module) (os : List (Object K)) :
    Option (Call K) → HostM K D (Except Error (Reply K)) → Prop where
  | call {c : Call K} (hbody : m.Offers c.body) (hargs : c.instances ⊆ Object.instancesOf os) :
    Runs m os (some c) c.run
  | refused (e : Error) : Runs m os none (pure (.error e))

theorem Runs.mono {c : Option (Call K)} {x : HostM K D (Except Error (Reply K))}
    (h : m.Runs os c x) (hos : Object.instancesOf os ⊆ Object.instancesOf ps) :
    m.Runs ps c x := by
  cases h with
  | call hbody hargs => exact .call hbody (hargs.trans hos)
  | refused e => exact .refused e

theorem runs_call (m : Module) (name : String) (os : List (Object K)) :
    m.Runs os (m.selectFunction? name os)
      (m.call name os : HostM K D (Except Error (Reply K))) := by
  unfold call
  cases h : m.selectFunction? name os with
  | none => exact .refused _
  | some c => exact .call (selectFunction_cases h).1 (selectFunction_cases h).2

theorem runs_callMethod (m : Module) (o : Object K) (name : String) (os : List (Object K)) :
    m.Runs (o :: os) (m.selectMethod? o name os)
      (m.callMethod o name os : HostM K D (Except Error (Reply K))) := by
  cases o with
  | inst i =>
    simp only [callMethod]
    cases h : m.selectMethod? (.inst i) name os with
    | none => exact .refused _
    | some c => exact .call (selectMethod_cases h).1 (selectMethod_cases h).2
  | _ => exact .refused _

theorem runs_binaryOperator (m : Module) (name : String) {l r : Object K}
    (hl : Object.instancesOf [l, r] ⊆ Object.instancesOf os)
    (hr : Object.instancesOf [r, l] ⊆ Object.instancesOf os) :
    m.Runs os ((m.selectMethod? l (forwardName name) [r]).or
        (m.selectMethod? r (reflectedName name) [l]))
      (m.binaryOperator name l r : HostM K D (Except Error (Reply K))) := by
  unfold binaryOperator
  cases h : m.selectMethod? l (forwardName name) [r] with
  | some c => exact .call (selectMethod_cases h).1 ((selectMethod_cases h).2.trans hl)
  | none =>
    cases h' : m.selectMethod? r (reflectedName name) [l] with
    | some c => exact .call (selectMethod_cases h').1 ((selectMethod_cases h').2.trans hr)
    | none => exact .refused _

end Module

namespace Session

open Body

section Objects

variable {K D : Type} {s : Session K D}

def instances (s : Session K D) : Set (Instance K) := Object.instancesOf (s.objects.map (·.2))

theorem instances_cons {o : Object K} {os : List (Object K)}
    (ho : Object.instancesOf [o] ⊆ s.instances) (hos : Object.instancesOf os ⊆ s.instances) :
    Object.instancesOf (o :: os) ⊆ s.instances := by
  rintro i ⟨p, hp, hi⟩
  obtain rfl | hp := List.mem_cons.mp hp
  · exact ho ⟨p, List.mem_cons_self .., hi⟩
  · exact hos ⟨p, hp, hi⟩

end Objects

variable {K D : Type} [Zero K] [One K] [Add K] [Mul K] [MulAdd K] [Capacity K] [NatCast K]
  [Calculus K] [Differential K D] [HostDerivative K D] {s : Session K D}

def call? (s : Session K D) : Request K → Option (Call K)
  | .call name args => do
    s.module.selectFunction? name (← (resolveAll s.objects args).toOption)
  | .newInstance name args => do
    let args ← (resolveAll s.objects args).toOption
    if s.module.classes.has name then s.module.selectFunction? name args else none
  | .method o name args => do
    let o ← (resolve s.objects o).toOption
    s.module.selectMethod? o name (← (resolveAll s.objects args).toOption)
  | .invoke o args => do
    let o ← (resolve s.objects o).toOption
    s.module.selectMethod? o "__call__" (← (resolveAll s.objects args).toOption)
  | .binary name l r => do
    let l ← (resolve s.objects l).toOption
    let r ← (resolve s.objects r).toOption
    (s.module.selectMethod? l (Module.forwardName name) [r]).or
      (s.module.selectMethod? r (Module.reflectedName name) [l])
  | .unary name o => do
    s.module.selectMethod? (← (resolve s.objects o).toOption) (Module.forwardName name) []
  | .bare _ | .copy _ => none

theorem call?_of_error {request : Request K} {f : Failure}
    (h : (s.perform request : Except Failure (HostM K D _)) = .error f) :
    s.call? request = none := by
  cases request with
  | call name args => exact toOption_bind_of_error (fun _ h => by cases h) h
  | newInstance name args => exact toOption_bind_of_error (fun _ h => by cases h) h
  | method o name args =>
    exact toOption_bind_of_error
      (fun _ h => toOption_bind_of_error (fun _ h => by cases h) h) h
  | invoke o args =>
    exact toOption_bind_of_error
      (fun _ h => toOption_bind_of_error (fun _ h => by cases h) h) h
  | binary name l r =>
    exact toOption_bind_of_error
      (fun _ h => toOption_bind_of_error (fun _ h => by cases h) h) h
  | unary name o => exact toOption_bind_of_error (fun _ h => by cases h) h
  | bare name => cases h
  | copy o => rfl

inductive Performs (s : Session K D) (request : Request K) :
    HostM K D (Except Error (Reply K)) → Prop where
  | call {c : Call K} (hc : s.call? request = some c) (hbody : s.module.Offers c.body)
    (hargs : c.instances ⊆ s.instances) : Performs s request c.run
  | refused (hc : s.call? request = none) (e : Error) : Performs s request (pure (.error e))
  | bare (hc : s.call? request = none) (name : String) :
    Performs s request do
      let id ← World.onGraph Graph.freshLabel
      return plain (.inst (.bare name id))
  | copy (hc : s.call? request = none) {o : Object K} (ho : Object.instancesOf [o] ⊆ s.instances) :
    Performs s request (pure (plain o))

theorem Performs.of_runs {request : Request K} {c : Option (Call K)}
    {m : HostM K D (Except Error (Reply K))} (h : s.module.Runs (s.objects.map (·.2)) c m)
    (hc : s.call? request = c) : s.Performs request m := by
  cases h with
  | call hbody hargs => exact .call hc hbody hargs
  | refused e => exact .refused hc e

theorem performs {request : Request K} {m : HostM K D (Except Error (Reply K))}
    (h : s.perform request = .ok m) : s.Performs request m := by
  cases request with
  | call name args =>
    obtain ⟨os, hos, h⟩ := exists_of_except_bind h
    cases h
    exact .of_runs ((s.module.runs_call name os).mono (instancesOf_resolveAll hos))
      (by rw [call?, hos]; rfl)
  | newInstance name args =>
    obtain ⟨os, hos, h⟩ := exists_of_except_bind h
    cases h
    have hc : s.call? (.newInstance name args) =
        if s.module.classes.has name then s.module.selectFunction? name os else none := by
      rw [call?, hos]
      rfl
    unfold Module.newInstance
    by_cases hclass : s.module.classes.has name = true
    · rw [if_pos hclass] at hc ⊢
      exact .of_runs ((s.module.runs_call name os).mono (instancesOf_resolveAll hos)) hc
    · rw [if_neg hclass] at hc ⊢
      exact .refused hc _
  | method o name args =>
    obtain ⟨o, ho, h⟩ := exists_of_except_bind h
    obtain ⟨os, hos, h⟩ := exists_of_except_bind h
    cases h
    have hargs := instances_cons (instancesOf_resolve ho) (instancesOf_resolveAll hos)
    exact .of_runs ((s.module.runs_callMethod o name os).mono hargs)
      (by rw [call?, ho, hos]; rfl)
  | invoke o args =>
    obtain ⟨o, ho, h⟩ := exists_of_except_bind h
    obtain ⟨os, hos, h⟩ := exists_of_except_bind h
    cases h
    have hargs := instances_cons (instancesOf_resolve ho) (instancesOf_resolveAll hos)
    exact .of_runs ((s.module.runs_callMethod o _ os).mono hargs)
      (by rw [call?, ho, hos]; rfl)
  | binary name l r =>
    obtain ⟨l, hl, h⟩ := exists_of_except_bind h
    obtain ⟨r, hr, h⟩ := exists_of_except_bind h
    cases h
    have hleft := instances_cons (instancesOf_resolve hl) (instancesOf_resolve hr)
    have hright := instances_cons (instancesOf_resolve hr) (instancesOf_resolve hl)
    exact .of_runs (s.module.runs_binaryOperator name hleft hright)
      (by rw [call?, hl, hr]; rfl)
  | unary name o =>
    obtain ⟨o, ho, h⟩ := exists_of_except_bind h
    cases h
    exact .of_runs ((s.module.runs_callMethod o _ []).mono (instancesOf_resolve ho))
      (by rw [call?, ho]; rfl)
  | bare name =>
    cases h
    exact .bare rfl name
  | copy o =>
    obtain ⟨o, ho, h⟩ := exists_of_except_bind h
    cases h
    exact .copy rfl (instancesOf_resolve ho)

/-- A tour of some objects reads variables among them: it calls one, asks for its derivative,
and goes on. -/
inductive Tours (m : Module) (os : List (Object K)) :
    HostM K D (Table (Except Error (Object K) × Except Error (Object K))) → Prop where
  | done : Tours m os (pure [])
  | next (name : String) {c : Category} {n : NodeId} (hn : .inst (.var c n) ∈ os)
    {x : HostM K D (Table (Except Error (Object K) × Except Error (Object K)))}
    (hx : Tours m os x) : Tours m os do
      let value ← m.callInstance (.inst (.var c n)) []
      let derivative ← m.call "d" [.inst (.var c n)]
      return (name, value.map (·.object), derivative.map (·.object)) :: (← x)

theorem tours (m : Module) {t : Table (Object K)} {os : List (Object K)}
    (ht : t.map (·.2) ⊆ os) : Tours m os (readVariables m t : HostM K D _) := by
  induction t with
  | nil => exact .done
  | cons e t ih =>
    obtain ⟨name, o⟩ := e
    obtain ⟨ho, hrest⟩ := List.cons_subset.mp ht
    cases o with
    | inst i =>
      cases i with
      | var c n => exact .next name ho (ih hrest)
      | _ => exact ih hrest
    | _ => exact ih hrest

def Step.request? : Step K → Option (Request K)
  | .make request _ => some request
  | _ => none

inductive Steps (s : Session K D) :
    Step K → Except Failure (Answer K) → Session K D → Prop where
  | unnamed {request : Request K} {f : Failure}
    (h : (s.perform request : Except Failure (HostM K D _)) = .error f)
    (storeAs : Option String) : Steps s (.make request storeAs) (.error f) s
  | refused {request : Request K} {m : HostM K D (Except Error (Reply K))}
    (h : s.perform request = .ok m) {e : Error} {w : World K D}
    (hrun : m s.world = some (.error e, w)) (storeAs : Option String) :
    Steps s (.make request storeAs) (.error (.refused e)) { s with world := w }
  | made {request : Request K} {m : HostM K D (Except Error (Reply K))}
    (h : s.perform request = .ok m) {r : Reply K} {w : World K D}
    (hrun : m s.world = some (.ok r, w)) (storeAs : Option String) :
    Steps s (.make request storeAs) (.ok (.object r.object)) ({ s with world := w }.keep storeAs r)
  | dropped {name : String} {o : Object K} (ho : s.objects.find? name = some o) :
    Steps s (.drop name) (.ok .nothing)
      ({ s with objects := s.objects.erase name }.release [] o.nodes)
  | dumped {vs : Table (Except Error (Object K) × Except Error (Object K))} {w : World K D}
    (hrun : readVariables s.module s.objects s.world = some (vs, w)) :
    Steps s .dump (.ok (.variables vs)) { s with world := w }
  | defined (name label : String) (params : List Param) :
    Steps s (.define name label params) (.ok .nothing)
      { s with module := s.module.define name (.echo label params) }
  | definedMethod (className name label : String) (params : List Param) :
    Steps s (.defineMethod className name label params) (.ok .nothing)
      { s with module := s.module.defineMethod className name (.echo label params) }
  | addedClass (name : String) (bases : List String) (doc : String) :
    Steps s (.addClass name bases doc) (.ok .nothing)
      { s with module := s.module.addClass name bases doc }
  | documented (name doc : String) :
    Steps s (.setDoc name doc) (.ok .nothing) { s with module := s.module.setDoc name doc }
  | asked {x : Step K} (hx : x.request? = none) (r : Except Failure (Answer K))
    (notes : Table NodeId) : Steps s x r { s with notes }

variable [BEq K] {s' : Session K D}

theorem steps {x : Step K} {r : Except Failure (Answer K)} (h : s.step x = some (s', r)) :
    s.Steps x r s' := by
  cases x with
  | make request storeAs =>
    simp only [step] at h
    cases hm : s.perform request with
    | error f =>
      rw [hm] at h
      cases h
      exact .unnamed hm storeAs
    | ok m =>
      rw [hm] at h
      obtain ⟨⟨reply, w⟩, hrun, h⟩ := Option.bind_eq_some_iff.mp h
      cases reply with
      | error e =>
        cases h
        exact .refused hm hrun storeAs
      | ok r =>
        cases h
        exact .made hm hrun storeAs
  | drop name =>
    simp only [step] at h
    cases ho : s.objects.find? name with
    | none =>
      rw [ho] at h
      cases h
      exact .asked rfl _ s.notes
    | some o =>
      rw [ho] at h
      cases h
      exact .dropped ho
  | node o noteAs =>
    simp only [step] at h
    cases hn : s.placeNode (.object o) with
    | error f =>
      rw [hn] at h
      cases h
      exact .asked rfl _ s.notes
    | ok n =>
      rw [hn] at h
      cases h
      exact .asked rfl _ _
  | dump =>
    obtain ⟨⟨vs, w⟩, hrun, h⟩ := Option.bind_eq_some_iff.mp h
    cases h
    exact .dumped hrun
  | define name label params =>
    cases h
    exact .defined name label params
  | defineMethod className name label params =>
    cases h
    exact .definedMethod className name label params
  | addClass name bases doc =>
    cases h
    exact .addedClass name bases doc
  | setDoc name doc =>
    cases h
    exact .documented name doc
  | _ =>
    cases h
    exact .asked rfl _ s.notes

end Session

end GradientGraph
