import GradientGraph.Host.Module
import GradientGraph.Proofs.Host.Rank

/-!
# Registrations

What a module holds after any sequence of registrations. Under each name stand the overloads
that were there and those registered under it, in the order of ranks; classes keep their bases,
so that methods are sought where they were sought before.
-/

set_option autoImplicit false

namespace GradientGraph

inductive Callee where
  | function (name : String)
  | method (className name : String)
deriving DecidableEq, Repr

structure Registration where
  callee : Callee
  body : Body

namespace Module

def enter (m : Module) (r : Registration) : Module :=
  match r.callee with
  | .function name => m.define name r.body
  | .method className name => m.defineMethod className name r.body

def enterAll (m : Module) (rs : List Registration) : Module := rs.foldl enter m

def overloadSet? (m : Module) : Callee → Option OverloadSet
  | .function name => m.functions.find? name
  | .method className name => (m.classes.find? className).bind (·.methods.find? name)

def overloads (m : Module) (s : Callee) : List Body := ((m.overloadSet? s).map (·.bodies)).getD []

/-- The overloads in the slot and those registered there, as they came in. -/
def registered (m : Module) (rs : List Registration) (s : Callee) : List Body :=
  m.overloads s ++ (rs.filter (·.callee = s)).map (·.body)

theorem overloadSet?_define (m : Module) (name : String) (b : Body) (s : Callee) :
    (m.define name b).overloadSet? s =
      if s = .function name then some (addOverload b (m.overloadSet? s)) else m.overloadSet? s := by
  cases s with
  | function k =>
    rw [overloadSet?, define, Table.find?_alter]
    by_cases hk : k = name
    · subst hk
      simp [overloadSet?]
    · simp [overloadSet?, hk]
  | method c k => rfl

theorem find?_methods (m : Module) (c k : String) :
    ((m.classes.find? c).getD {}).methods.find? k = m.overloadSet? (.method c k) := by
  rw [overloadSet?]
  cases m.classes.find? c <;> rfl

theorem overloadSet?_defineMethod (m : Module) (className name : String) (b : Body)
    (s : Callee) :
    (m.defineMethod className name b).overloadSet? s =
      if s = .method className name then some (addOverload b (m.overloadSet? s))
      else m.overloadSet? s := by
  cases s with
  | function k => rfl
  | method c k =>
    rw [overloadSet?, defineMethod, Table.find?_alter]
    by_cases hc : c = className
    · subst hc
      rw [if_pos rfl, Option.bind_some, Table.find?_alter, find?_methods, find?_methods]
      by_cases hk : k = name
      · subst hk
        simp
      · simp [hk]
    · simp [overloadSet?, hc]

theorem overloadSet?_enter (m : Module) (r : Registration) (s : Callee) :
    (m.enter r).overloadSet? s =
      if r.callee = s then some (addOverload r.body (m.overloadSet? s)) else m.overloadSet? s := by
  obtain ⟨callee, b⟩ := r
  cases callee with
  | function name =>
    rw [enter, overloadSet?_define]
    simp only [eq_comm]
  | method className name =>
    rw [enter, overloadSet?_defineMethod]
    simp only [eq_comm]

theorem bases_enter (m : Module) (r : Registration) (c : String) :
    (m.enter r).bases c = m.bases c := by
  obtain ⟨callee, b⟩ := r
  cases callee with
  | function name => rfl
  | method className name =>
    simp only [enter, defineMethod, bases, Table.find?_alter]
    by_cases hc : c = className
    · subst hc
      cases m.classes.find? c <;> simp
    · simp [hc]

theorem linearize_congr {m m' : Module} (h : ∀ c, m'.bases c = m.bases c)
    (seen pending : List String) : m'.linearize seen pending = m.linearize seen pending := by
  fun_induction linearize m seen pending with
  | case1 seen => rw [linearize]
  | case2 seen c rest hc ih => rw [linearize, if_pos hc, ih]
  | case3 seen c rest hc ih => rw [linearize, if_neg hc, h, ih]

theorem overloads_enter (m : Module) (r : Registration) (s : Callee) :
    (m.enter r).overloads s =
      if r.callee = s then OverloadSet.insertList r.body (m.overloads s) else m.overloads s := by
  rw [overloads, overloadSet?_enter]
  split
  · rw [overloads]
    cases m.overloadSet? s <;> rfl
  · rfl

theorem ranked_overloads (m : Module) (s : Callee) : OverloadSet.Ranked (m.overloads s) := by
  rw [overloads]
  cases m.overloadSet? s with
  | none => exact .nil
  | some set => exact set.byRank

section Run

variable {m : Module} {rs : List Registration} {s : Callee}

theorem overloads_enterAll (m : Module) (rs : List Registration) (s : Callee) :
    (m.enterAll rs).overloads s = OverloadSet.inRanks (m.registered rs s) := by
  rw [registered, ← OverloadSet.foldl_insertList (m.ranked_overloads s)]
  induction rs generalizing m with
  | nil => rfl
  | cons r rs ih =>
    refine (ih (m.enter r)).trans ?_
    rw [overloads_enter]
    by_cases hr : r.callee = s
    · rw [if_pos hr, List.filter_cons_of_pos (by simpa using hr), List.map_cons, List.foldl_cons]
    · rw [if_neg hr, List.filter_cons_of_neg (by simpa using hr)]

theorem isSome_enterAll (m : Module) (rs : List Registration) (s : Callee) :
    ((m.enterAll rs).overloadSet? s).isSome =
      ((m.overloadSet? s).isSome || rs.any (·.callee = s)) := by
  induction rs generalizing m with
  | nil => simp [enterAll]
  | cons r rs ih =>
    refine (ih (m.enter r)).trans ?_
    rw [overloadSet?_enter, List.any_cons]
    by_cases hr : r.callee = s <;> simp [hr]

theorem lineage_enterAll (m : Module) (rs : List Registration) (className : String) :
    (m.enterAll rs).lineage className = m.lineage className := by
  refine linearize_congr (fun c => ?_) [] [className]
  exact List.foldlRecOn rs enter (motive := fun n => n.bases c = m.bases c) rfl
    fun n hn r _ => (bases_enter n r c).trans hn

end Run

end Module

/-- Whether two sequences hold the same registrations, and those under one name whose ranks are
equal in the same order. -/
structure Reordered (rs rs' : List Registration) : Prop where
  perm : rs.Perm rs'
  order : ∀ s ranks, rs.filter (fun r => r.callee = s ∧ r.body.ranks = ranks) =
    rs'.filter fun r => r.callee = s ∧ r.body.ranks = ranks

namespace Module

theorem filter_registered (m : Module) (rs : List Registration) (s : Callee) (ranks : List Nat) :
    (m.registered rs s).filter (·.ranks = ranks) = (m.overloads s).filter (·.ranks = ranks) ++
      (rs.filter fun r => r.callee = s ∧ r.body.ranks = ranks).map (·.body) := by
  rw [registered, List.filter_append, List.filter_map, List.filter_filter]
  simp [Bool.and_comm]

theorem overloadSet?_ext {m m' : Module} {s : Callee}
    (hsome : (m.overloadSet? s).isSome = (m'.overloadSet? s).isSome)
    (h : m.overloads s = m'.overloads s) : m.overloadSet? s = m'.overloadSet? s := by
  rw [overloads, overloads] at h
  cases hs : m.overloadSet? s with
  | none =>
    rw [hs] at hsome
    exact (Option.isNone_iff_eq_none.mp (by simpa using hsome.symm)).symm
  | some set =>
    cases hs' : m'.overloadSet? s with
    | none => simp [hs, hs'] at hsome
    | some set' =>
      rw [hs, hs'] at h
      obtain ⟨bs, hbs⟩ := set
      obtain ⟨bs', hbs'⟩ := set'
      obtain rfl : bs = bs' := h
      rfl

/-- Sequences that differ in the order of unequal ranks leave the same overloads. -/
theorem overloadSet?_reordered {rs rs' : List Registration} (h : Reordered rs rs') (m : Module)
    (s : Callee) : (m.enterAll rs).overloadSet? s = (m.enterAll rs').overloadSet? s := by
  apply overloadSet?_ext
  · rw [isSome_enterAll, isSome_enterAll, h.perm.any_eq]
  · rw [overloads_enterAll, overloads_enterAll]
    exact OverloadSet.inRanks_congr fun ranks => by
      rw [filter_registered, filter_registered, h.order]

end Module

end GradientGraph
