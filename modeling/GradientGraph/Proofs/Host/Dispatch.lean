import GradientGraph.Proofs.Host.Cause
import GradientGraph.Proofs.Host.Registration
import GradientGraph.Scalar.Float

/-!
# Dispatch by rank

A call of a function or a method is answered by the overload of least rank that takes the
arguments, the first registered among equals, and refused if there is none. So it makes no
difference in which order overloads of unequal ranks are registered.
-/

set_option autoImplicit false

namespace GradientGraph

open OverloadSet

variable {K D : Type} [Zero K] [One K] [Add K] [Mul K] [MulAdd K] [Capacity K] [NatCast K]
  [Calculus K] [Differential K D] [HostDerivative K D]

/-- Whether the call is answered by rank among overloads that were registered in the order of
the list, and refused under the name if none of them takes the arguments. -/
structure Dispatches (bs : List Body) (args : List (Object K)) (name : String)
    (call : HostM K D (Except Error (Reply K))) : Prop where
  led : (∃ b ∈ bs, (b.call? args).isSome) → ∃ i c, Leads bs args i c
  answered : ∀ i c, Leads bs args i c → call = c.run
  refused : (∀ b ∈ bs, b.call? args = none) → call = Module.missing name
  missing : ∀ w, (∃ k w', call w = some (.error (.noMatchingOverload k), w')) ↔
    ∀ b ∈ bs, b.call? args = none

theorem dispatches_findSome? (bs : List Body) (args : List (Object K)) (name : String) :
    Dispatches bs args name (match (inRanks bs).findSome? (·.call? args) with
      | some c => c.run
      | none => Module.missing name : HostM K D (Except Error (Reply K))) := by
  obtain ⟨i, c, hlead, hfirst⟩ | ⟨hnone, hfirst⟩ := leads_or_refuses bs args
  · have hsome : ¬∀ b ∈ bs, b.call? args = none := fun hnone => hlead.not_refused hnone
    simp only [hfirst]
    refine ⟨fun _ => ⟨i, c, hlead⟩, fun j d h => by rw [hlead.unique h],
      fun h => absurd h hsome, fun w => ⟨?_, fun h => absurd h hsome⟩⟩
    rintro ⟨k, w', h⟩
    exact absurd rfl (Body.yields_run c.body c.args w _ w' h k)
  · simp only [hfirst]
    refine ⟨?_, fun i c h => (h.not_refused hnone).elim, fun _ => rfl,
      fun w => ⟨fun _ => hnone, fun _ => ⟨name, w, rfl⟩⟩⟩
    rintro ⟨b, hb, htakes⟩
    rw [hnone b hb] at htakes
    cases htakes

namespace Module

variable (m : Module) (rs : List Registration)

/-- The class that decides on a method: the first of the lineage that has the name. -/
def decider? (className name : String) : Option String :=
  (m.lineage className).find? fun c => (m.overloadSet? (.method c name)).isSome

def registeredMethods (className name : String) : List Body :=
  (((m.enterAll rs).decider? className name).map fun c =>
    m.registered rs (.method c name)).getD []

theorem method?_eq (className name : String) : m.method? className name =
    (m.decider? className name).bind fun c => m.overloadSet? (.method c name) := by
  have hfirst (f : String → Option OverloadSet) (cs : List String) :
      cs.findSome? f = (cs.find? fun c => (f c).isSome).bind f := by
    induction cs with
    | nil => rfl
    | cons c cs ih =>
      rw [List.findSome?_cons, List.find?_cons]
      cases h : f c with
      | none => exact ih
      | some set => exact h.symm
  exact hfirst _ _

section Calls

variable {K D : Type} [Zero K]

theorem select_overloads (s : Callee) (args : List (Object K)) :
    (m.overloadSet? s).bind (·.select? args) = (m.overloads s).findSome? (·.call? args) := by
  rw [overloads]
  cases m.overloadSet? s <;> rfl

theorem selectFunction_enterAll (name : String) (args : List (Object K)) :
    (m.enterAll rs).selectFunction? name args =
      (inRanks (m.registered rs (.function name))).findSome? (·.call? args) :=
  ((m.enterAll rs).select_overloads (.function name) args).trans
    (congrArg _ (m.overloads_enterAll rs (.function name)))

theorem selectMethod_enterAll (i : Instance K) (name : String) (args : List (Object K)) :
    (m.enterAll rs).selectMethod? (.inst i) name args =
      (inRanks (m.registeredMethods rs i.className name)).findSome?
        (·.call? (.inst i :: args)) := by
  have hselect : (m.enterAll rs).selectMethod? (.inst i) name args =
      ((m.enterAll rs).method? i.className name).bind (·.select? (.inst i :: args)) := rfl
  rw [hselect, method?_eq, registeredMethods]
  cases (m.enterAll rs).decider? i.className name with
  | none => rfl
  | some c =>
    exact ((m.enterAll rs).select_overloads (.method c name) _).trans
      (congrArg _ (m.overloads_enterAll rs (.method c name)))

variable [One K] [Add K] [Mul K] [MulAdd K] [Capacity K] [NatCast K] [Calculus K]
  [Differential K D] [HostDerivative K D]

theorem dispatches_call (name : String) (args : List (Object K)) :
    Dispatches (m.registered rs (.function name)) args name
      ((m.enterAll rs).call name args : HostM K D (Except Error (Reply K))) := by
  rw [call, selectFunction_enterAll]
  exact dispatches_findSome? _ args name

theorem dispatches_callMethod (i : Instance K) (name : String) (args : List (Object K)) :
    Dispatches (m.registeredMethods rs i.className name) (.inst i :: args)
      (i.className ++ "." ++ name)
      ((m.enterAll rs).callMethod (.inst i) name args : HostM K D (Except Error (Reply K))) := by
  simp only [callMethod, selectMethod_enterAll]
  exact dispatches_findSome? _ _ _

/-- Sequences that differ in the order of unequal ranks lead to the same calls. -/
theorem call_reordered {rs rs' : List Registration} (h : Reordered rs rs') (name : String)
    (args : List (Object K)) :
    ((m.enterAll rs).call name args : HostM K D (Except Error (Reply K))) =
      (m.enterAll rs').call name args := by
  have hselect : (m.enterAll rs).selectFunction? name args =
      (m.enterAll rs').selectFunction? name args :=
    congrArg (·.bind (·.select? args)) (overloadSet?_reordered h m (.function name))
  rw [call, call, hselect]

theorem callMethod_reordered {rs rs' : List Registration} (h : Reordered rs rs') (o : Object K)
    (name : String) (args : List (Object K)) :
    ((m.enterAll rs).callMethod o name args : HostM K D (Except Error (Reply K))) =
      (m.enterAll rs').callMethod o name args := by
  cases o with
  | inst i =>
    have hmethod : (m.enterAll rs).method? i.className name =
        (m.enterAll rs').method? i.className name := by
      rw [method?_eq, method?_eq, decider?, decider?, lineage_enterAll, lineage_enterAll]
      simp only [overloadSet?_reordered h m]
    have hselect : (m.enterAll rs).selectMethod? (.inst i) name args =
        (m.enterAll rs').selectMethod? (.inst i) name args :=
      congrArg (·.bind (·.select? (.inst i :: args))) hmethod
    simp only [callMethod, hselect]
  | _ => rfl

/-- Whatever is registered in whatever order, functions and methods answer by rank. The order in
which overloads of unequal ranks are registered is not seen. Among overloads that differ in one
parameter, a number, a vector or a matrix, an array of one dimension or of a single column binds
to the vector, and one of any other number of columns to the matrix. -/
theorem dispatch_by_rank :
    (∀ (m : Module) (rs : List Registration) (name : String) (args : List (Object K)),
      Dispatches (m.registered rs (.function name)) args name
        ((m.enterAll rs).call name args : HostM K D (Except Error (Reply K)))) ∧
    (∀ (m : Module) (rs : List Registration) (i : Instance K) (name : String)
      (args : List (Object K)),
      Dispatches (m.registeredMethods rs i.className name) (.inst i :: args)
        (i.className ++ "." ++ name)
        ((m.enterAll rs).callMethod (.inst i) name args : HostM K D (Except Error (Reply K)))) ∧
    (∀ (m : Module) (rs rs' : List Registration), Reordered rs rs' →
      (∀ (name : String) (args : List (Object K)),
        ((m.enterAll rs).call name args : HostM K D (Except Error (Reply K))) =
          (m.enterAll rs').call name args) ∧
      ∀ (o : Object K) (name : String) (args : List (Object K)),
        ((m.enterAll rs).callMethod o name args : HostM K D (Except Error (Reply K))) =
          (m.enterAll rs').callMethod o name args) ∧
    ∀ (bs : List Body) (pre post : List Param) (us ws : List (Object K)) (a : Tensor K),
      (Param.convertAll? pre us).isSome → (Param.convertAll? post ws).isSome →
      (∀ b ∈ bs, ∃ c, b.params = pre ++ .value c :: post) →
      (∀ n, a.dims = [n] ∨ a.dims = [n, 1] →
        (∃ b ∈ bs, b.params = pre ++ .value .vector :: post) →
        ∃ i c, Leads bs (us ++ .array a :: ws) i c ∧
          c.body.params = pre ++ .value .vector :: post) ∧
      ∀ r k, a.dims = [r, k] → k ≠ 1 →
        (∃ b ∈ bs, b.params = pre ++ .value .matrix :: post) →
        ∃ i c, Leads bs (us ++ .array a :: ws) i c ∧
          c.body.params = pre ++ .value .matrix :: post := by
  refine ⟨fun m rs => m.dispatches_call rs, fun m rs => m.dispatches_callMethod rs,
    fun m rs rs' h => ⟨m.call_reordered h, m.callMethod_reordered h⟩, ?_⟩
  intro bs pre post us ws a hpre hpost hbs
  constructor
  · intro n hdims hvector
    obtain ⟨htakes, hleast⟩ := convert_column hdims
    exact leads_of_least hpre hpost hbs hvector htakes hleast
  · intro r k hdims hk hmatrix
    obtain ⟨htakes, hleast⟩ := convert_matrix hdims hk
    exact leads_of_least hpre hpost hbs hmatrix htakes hleast

end Calls

/-- A matrix and a vector registered in either order, and called on a column and on a row. -/
theorem dispatch_by_rank_reversed :
    let m : Module := { name := "test", doc := "" }
    let matrix : Body := .echo "matrix" [.value .matrix]
    let vector : Body := .echo "vector" [.value .vector]
    let rs : List Registration := [⟨.function "kind", matrix⟩, ⟨.function "kind", vector⟩]
    let rs' : List Registration := [⟨.function "kind", vector⟩, ⟨.function "kind", matrix⟩]
    let column : Tensor Float := ⟨[2, 1], #[3, 4], rfl⟩
    let row : Tensor Float := ⟨[1, 2], #[3, 4], rfl⟩
    let call (args : List (Object Float)) : HostM Float (Mat Float) (Except Error (Reply Float)) :=
      (m.enterAll rs).call "kind" args
    Reordered rs rs' ∧ (∀ args, call args = (m.enterAll rs').call "kind" args) ∧
      (∃ i c, Leads [matrix, vector] [.array column] i c ∧ c.body = vector ∧
        call [.array column] = c.run) ∧
      (∃ i c, Leads [matrix, vector] [.array row] i c ∧ c.body = matrix ∧
        call [.array row] = c.run) ∧
      call [.none] = missing "kind" := by
  intro m matrix vector rs rs' column row call
  obtain ⟨hcalls, -, hreordered, hbinds⟩ := dispatch_by_rank (K := Float) (D := Mat Float)
  have hrs : Reordered rs rs' := by
    refine ⟨.swap _ _ _, fun s ranks => ?_⟩
    have hne : matrix.ranks ≠ vector.ranks := by decide
    by_cases hmatrix : matrix.ranks = ranks
    · have hvector : vector.ranks ≠ ranks := fun h => hne (hmatrix.trans h.symm)
      simp [rs, rs', List.filter_cons, hvector]
    · simp [rs, rs', List.filter_cons, hmatrix]
  have hbodies : ∀ b ∈ [matrix, vector], ∃ c, b.params = [] ++ .value c :: [] := by
    intro b hb
    obtain rfl | hb := List.mem_cons.mp hb
    · exact ⟨.matrix, rfl⟩
    · exact ⟨.vector, congrArg Body.params (List.mem_singleton.mp hb)⟩
  have hbinds := fun a => hbinds [matrix, vector] [] [] [] [] a rfl rfl hbodies
  obtain ⟨i, c, hlead, hc⟩ := (hbinds column).1 2 (.inr rfl) ⟨vector, by simp, rfl⟩
  obtain ⟨j, d, hlead', hd⟩ := (hbinds row).2 1 2 rfl (by decide) ⟨matrix, by simp, rfl⟩
  refine ⟨hrs, (hreordered m rs rs' hrs).1 "kind", ⟨i, c, hlead, ?_, ?_⟩,
    ⟨j, d, hlead', ?_, ?_⟩, ?_⟩
  · obtain h | h := List.mem_cons.mp (List.mem_of_getElem? hlead.place)
    · rw [h] at hc
      cases hc
    · exact List.mem_singleton.mp h
  · exact (hcalls m rs "kind" _).answered i c hlead
  · obtain h | h := List.mem_cons.mp (List.mem_of_getElem? hlead'.place)
    · exact h
    · rw [List.mem_singleton.mp h] at hd
      cases hd
  · exact (hcalls m rs "kind" _).answered j d hlead'
  · refine (hcalls m rs "kind" [.none]).refused fun b hb => ?_
    obtain rfl | hb := List.mem_cons.mp hb
    · rfl
    · rw [List.mem_singleton.mp hb]
      rfl

end Module

end GradientGraph
