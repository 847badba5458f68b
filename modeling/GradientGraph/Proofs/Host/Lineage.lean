import Mathlib.Logic.Relation
import GradientGraph.Proofs.Host.Dispatch

/-!
# Lineages

A class comes before its bases, and a base with all that it leads to comes before the next one.
The loop over pending names finds the order of this recursion for every table of classes, also
if a base is not declared, stands there twice or leads back to the class. So a lineage holds what
can be reached through bases, once each, and the first class of it that has a method decides.
-/

set_option autoImplicit false

namespace GradientGraph

namespace Module

open Relation (ReflTransGen)

variable (m : Module)

/-- The traversal by recursion: the names are visited from left to right, each with its bases
before the next one, and the names seen so far are passed over. -/
inductive Explores : List String → List String → List String → Prop where
  | done (seen : List String) : Explores seen [] seen
  | skip {c : String} {seen rest order : List String} (hc : c ∈ seen)
      (hrest : Explores seen rest order) : Explores seen (c :: rest) order
  | visit {c : String} {seen rest below order : List String} (hc : c ∉ seen)
      (hbases : Explores (seen ++ [c]) (m.bases c) below) (hrest : Explores below rest order) :
      Explores seen (c :: rest) order

/-- One round of the loop. The names that were seen come latest first. -/
def pop : List String × List String → List String × List String
  | (seen, []) => (seen, [])
  | (seen, c :: rest) => if c ∈ seen then (seen, rest) else (c :: seen, m.bases c ++ rest)

def baseCount (cs : List String) : Nat := (cs.map fun c => (m.bases c).length).sum

def HasBase (c b : String) : Prop := ∃ info, m.classes.find? c = some info ∧ b ∈ info.bases

theorem hasBase_iff {c b : String} : m.HasBase c b ↔ b ∈ m.bases c := by
  rw [HasBase, bases]
  cases m.classes.find? c with
  | none => simp
  | some info => simp

theorem baseCount_append (cs ds : List String) :
    m.baseCount (cs ++ ds) = m.baseCount cs + m.baseCount ds := by
  simp [baseCount]

theorem linearize_pop (s : List String × List String) :
    m.linearize (m.pop s).1 (m.pop s).2 = m.linearize s.1 s.2 := by
  obtain ⟨seen, pending⟩ := s
  cases pending with
  | nil => rfl
  | cons c rest =>
    by_cases hc : c ∈ seen
    · rw [pop, if_pos hc, linearize, if_pos hc]
    · rw [pop, if_neg hc, linearize.eq_2, if_neg hc]

theorem linearize_iterate_pop (n : Nat) (s : List String × List String) :
    m.linearize (m.pop^[n] s).1 (m.pop^[n] s).2 = m.linearize s.1 s.2 := by
  induction n generalizing s with
  | zero => rfl
  | succ n ih => rw [Function.iterate_succ_apply, ih, linearize_pop]

namespace Explores

variable {m} {seen names order : List String}

theorem isPrefix (h : m.Explores seen names order) : seen <+: order := by
  induction h with
  | done seen => exact List.prefix_rfl
  | skip hc hrest ih => exact ih
  | visit hc hbases hrest ihbases ihrest =>
    exact (List.prefix_append _ _).trans (ihbases.trans ihrest)

theorem subset (h : m.Explores seen names order) : seen ⊆ order := h.isPrefix.subset

theorem nodup (h : m.Explores seen names order) (hseen : seen.Nodup) : order.Nodup := by
  induction h with
  | done seen => exact hseen
  | skip hc hrest ih => exact ih hseen
  | visit hc hbases hrest ihbases ihrest =>
    exact ihrest (ihbases (List.concat_eq_append ▸ hseen.concat hc))

theorem names_subset (h : m.Explores seen names order) : names ⊆ order := by
  induction h with
  | done seen => exact List.nil_subset _
  | skip hc hrest ih => exact List.cons_subset.mpr ⟨hrest.subset hc, ih⟩
  | visit hc hbases hrest ihbases ihrest =>
    exact List.cons_subset.mpr ⟨hrest.subset (hbases.subset (by simp)), ihrest⟩

theorem bases_subset (h : m.Explores seen names order) {c : String} (hc : c ∈ order)
    (hnew : c ∉ seen) : m.bases c ⊆ order := by
  induction h with
  | done seen => exact absurd hc hnew
  | skip hd hrest ih => exact ih hc hnew
  | @visit d seen rest below order hd hbases hrest ihbases ihrest =>
    by_cases hbelow : c ∈ below
    · by_cases hcd : c = d
      · subst hcd
        exact List.Subset.trans hbases.names_subset hrest.subset
      · exact List.Subset.trans (ihbases hbelow (by simp [hnew, hcd])) hrest.subset
    · exact ihrest hc hbelow

theorem reached (h : m.Explores seen names order) {c : String} (hc : c ∈ order)
    (hnew : c ∉ seen) : ∃ d ∈ names, ReflTransGen m.HasBase d c := by
  induction h with
  | done seen => exact absurd hc hnew
  | skip hd hrest ih =>
    obtain ⟨e, he, hreach⟩ := ih hc hnew
    exact ⟨e, List.mem_cons_of_mem _ he, hreach⟩
  | @visit d seen rest below order hd hbases hrest ihbases ihrest =>
    by_cases hbelow : c ∈ below
    · refine ⟨d, List.mem_cons_self, ?_⟩
      by_cases hcd : c = d
      · exact hcd ▸ .refl
      · obtain ⟨e, he, hreach⟩ := ihbases hbelow (by simp [hnew, hcd])
        exact .head (m.hasBase_iff.mpr he) hreach
    · obtain ⟨e, he, hreach⟩ := ihrest hc hbelow
      exact ⟨e, List.mem_cons_of_mem _ he, hreach⟩

theorem mem_iff (h : m.Explores [] names order) {c : String} :
    c ∈ order ↔ ∃ d ∈ names, ReflTransGen m.HasBase d c := by
  constructor
  · intro hc
    exact h.reached hc List.not_mem_nil
  · rintro ⟨d, hd, hreach⟩
    induction hreach with
    | refl => exact h.names_subset hd
    | tail hreach hbase ih =>
      exact h.bases_subset ih List.not_mem_nil (m.hasBase_iff.mp hbase)

theorem split {left right : List String} (h : m.Explores seen (left ++ right) order) :
    ∃ mid, m.Explores seen left mid ∧ m.Explores mid right order := by
  induction left generalizing seen with
  | nil => exact ⟨seen, .done seen, h⟩
  | cons c left ih =>
    cases h with
    | skip hc hrest =>
      obtain ⟨mid, hleft, hright⟩ := ih hrest
      exact ⟨mid, .skip hc hleft, hright⟩
    | visit hc hbases hrest =>
      obtain ⟨mid, hleft, hright⟩ := ih hrest
      exact ⟨mid, .visit hc hbases hleft, hright⟩

/-- The loop pops each name that the recursion meets, and leaves what was pending below. -/
theorem iterate_pop (h : m.Explores seen names order) (pending : List String) :
    ∃ n, m.baseCount seen + n = m.baseCount order ∧
      m.pop^[names.length + n] (seen.reverse, names ++ pending) = (order.reverse, pending) := by
  induction h generalizing pending with
  | done seen => exact ⟨0, rfl, rfl⟩
  | @skip c seen rest order hc hrest ih =>
    obtain ⟨n, hcount, hloop⟩ := ih pending
    have hpop : m.pop (seen.reverse, c :: (rest ++ pending)) = (seen.reverse, rest ++ pending) :=
      if_pos (List.mem_reverse.mpr hc)
    refine ⟨n, hcount, ?_⟩
    rw [List.length_cons, Nat.add_right_comm, Function.iterate_succ_apply, List.cons_append, hpop,
      hloop]
  | @visit c seen rest below order hc hbases hrest ihbases ihrest =>
    obtain ⟨k, hbelow, hdown⟩ := ihbases (rest ++ pending)
    obtain ⟨n, hcount, hloop⟩ := ihrest pending
    have hpop : m.pop (seen.reverse, c :: (rest ++ pending)) =
        ((seen ++ [c]).reverse, m.bases c ++ (rest ++ pending)) := by
      rw [pop, if_neg (fun h => hc (List.mem_reverse.mp h)), List.reverse_append]
      rfl
    have hone : m.baseCount [c] = (m.bases c).length := by simp [baseCount]
    rw [baseCount_append, hone] at hbelow
    refine ⟨(m.bases c).length + k + n, by omega, ?_⟩
    have hsteps : (c :: rest).length + ((m.bases c).length + k + n) =
        (rest.length + n) + ((m.bases c).length + k) + 1 := by
      rw [List.length_cons]
      omega
    rw [hsteps, Function.iterate_succ_apply, List.cons_append, hpop, Function.iterate_add_apply,
      hdown, hloop]

end Explores

theorem explores_linearize (seen pending : List String) :
    m.Explores seen.reverse pending (m.linearize seen pending) := by
  fun_induction linearize m seen pending with
  | case1 seen => exact .done _
  | case2 seen c rest hc ih => exact .skip (List.mem_reverse.mpr hc) ih
  | case3 seen c rest hc ih =>
    rw [List.reverse_cons] at ih
    obtain ⟨below, hbases, hrest⟩ := ih.split
    exact .visit (fun h => hc (List.mem_reverse.mp h)) hbases hrest

theorem explores_lineage (c : String) : m.Explores [] [c] (m.lineage c) :=
  m.explores_linearize [] [c]

/-- The loop ends when it has popped the class and every base of a class in its lineage. -/
theorem iterate_pop_lineage (c : String) :
    m.pop^[1 + m.baseCount (m.lineage c)] ([], [c]) = ((m.lineage c).reverse, []) := by
  obtain ⟨n, hcount, hloop⟩ := (m.explores_lineage c).iterate_pop []
  have hn : n = m.baseCount (m.lineage c) := (Nat.zero_add n).symm.trans hcount
  rw [← hn]
  exact hloop

theorem explores_iff (c : String) (order : List String) :
    m.Explores [] [c] order ↔ order = m.lineage c := by
  constructor
  · intro h
    obtain ⟨n, -, hloop⟩ := h.iterate_pop []
    have hsame := m.linearize_iterate_pop (1 + n) ([], [c])
    rw [show m.pop^[1 + n] ([], [c]) = (order.reverse, []) from hloop, linearize,
      List.reverse_reverse] at hsame
    exact hsame
  · rintro rfl
    exact m.explores_lineage c

theorem lineage_eq_cons (c : String) : ∃ others, m.lineage c = c :: others := by
  cases m.explores_lineage c with
  | skip hc hrest => cases hc
  | visit hc hbases hrest =>
    obtain ⟨others, h⟩ := hbases.isPrefix.trans hrest.isPrefix
    exact ⟨others, h.symm⟩

theorem mem_lineage {c b : String} : b ∈ m.lineage c ↔ ReflTransGen m.HasBase c b := by
  rw [(m.explores_lineage c).mem_iff]
  simp

section Calls

variable {K D : Type}

theorem isInstance_iff {o : Object K} {c : String} :
    m.isInstance o c = true ↔
      ∃ i, o.instance? = some i ∧ ReflTransGen m.HasBase i.className c := by
  cases o with
  | inst i => simp [isInstance, Object.instance?, mem_lineage]
  | _ => simp [isInstance, Object.instance?]

variable [Zero K]

theorem selectMethod_inst (i : Instance K) (name : String) (args : List (Object K)) :
    m.selectMethod? (.inst i) name args =
      (m.method? i.className name).bind (·.select? (.inst i :: args)) := rfl

/-- A method is sought among the overloads of the first class in the lineage that has the name,
and among no others. -/
theorem selectMethod_first (i : Instance K) (name : String) {before after : List String}
    {c : String} {set : OverloadSet} (hlineage : m.lineage i.className = before ++ c :: after)
    (hbefore : ∀ b ∈ before, m.overloadSet? (.method b name) = none)
    (hset : m.overloadSet? (.method c name) = some set) (args : List (Object K)) :
    m.selectMethod? (.inst i) name args = set.select? (.inst i :: args) := by
  have hfind : m.decider? i.className name = some c :=
    List.find?_eq_some_iff_append.mpr
      ⟨by simp [hset], before, after, hlineage, fun b hb => by simp [hbefore b hb]⟩
  rw [selectMethod_inst, method?_eq, hfind, Option.bind_some, hset, Option.bind_some]

theorem selectMethod_none (i : Instance K) (name : String)
    (hnone : ∀ c ∈ m.lineage i.className, m.overloadSet? (.method c name) = none)
    (args : List (Object K)) : m.selectMethod? (.inst i) name args = none := by
  have hfind : m.decider? i.className name = none :=
    List.find?_eq_none.mpr fun c hc => by simp [hnone c hc]
  rw [selectMethod_inst, method?_eq, hfind, Option.bind_none, Option.bind_none]

variable [One K] [Add K] [Mul K] [MulAdd K] [Capacity K] [NatCast K] [Calculus K]
  [Differential K D] [HostDerivative K D]

/-- Whether calls of the method on the instance are answered from the first class in the lineage
that has the name, or refused if there is none. -/
inductive FirstDecides (D : Type) [Differential K D] [HostDerivative K D] (i : Instance K)
    (name : String) : Prop where
  | decided {before after : List String} {c : String} {set : OverloadSet}
      (hlineage : m.lineage i.className = before ++ c :: after)
      (hbefore : ∀ b ∈ before, m.overloadSet? (.method b name) = none)
      (hset : m.overloadSet? (.method c name) = some set)
      (hselect : ∀ args, m.selectMethod? (.inst i) name args = set.select? (.inst i :: args))
      (hcall : ∀ args, (m.callMethod (.inst i) name args : HostM K D (Except Error (Reply K))) =
        match set.select? (.inst i :: args) with
        | some call => call.run
        | none => missing (i.className ++ "." ++ name))
  | refused (hnone : ∀ c ∈ m.lineage i.className, m.overloadSet? (.method c name) = none)
      (hselect : ∀ args, m.selectMethod? (.inst i) name args = none)
      (hcall : ∀ args, (m.callMethod (.inst i) name args : HostM K D (Except Error (Reply K))) =
        missing (i.className ++ "." ++ name))

theorem firstDecides (i : Instance K) (name : String) : m.FirstDecides D i name := by
  by_cases hnone : ∀ c ∈ m.lineage i.className, m.overloadSet? (.method c name) = none
  · have hselect := m.selectMethod_none i name hnone
    exact .refused hnone hselect fun args => by rw [callMethod, hselect]
  · have hsome : ∃ c, m.decider? i.className name = some c := by
      rw [← Option.isSome_iff_exists, decider?, List.find?_isSome]
      simpa [Option.ne_none_iff_isSome] using hnone
    obtain ⟨c, hc⟩ := hsome
    obtain ⟨hhas, before, after, hlineage, hbefore⟩ := List.find?_eq_some_iff_append.mp hc
    obtain ⟨set, hset⟩ := Option.isSome_iff_exists.mp hhas
    have hbefore : ∀ b ∈ before, m.overloadSet? (.method b name) = none := fun b hb => by
      simpa using hbefore b hb
    have hselect := m.selectMethod_first i name hlineage hbefore hset
    refine .decided hlineage hbefore hset hselect fun args => ?_
    cases h : set.select? (.inst i :: args) <;> simp only [callMethod, hselect, h]

/-- Whatever bases the classes have, the lineage of a class is the order in which the recursion
visits it and its bases, and the loop ends with it. The class stands first in it, and no name
twice, and it holds what can be reached through declared bases. So instances of a class are those
of the classes it can be reached from, and a method is that of the first class in the lineage that
has the name, whether or not it takes the arguments. -/
theorem lineage_depth_first (m : Module) :
    (∀ c : String,
      (∀ order, m.Explores [] [c] order ↔ order = m.lineage c) ∧
      m.pop^[1 + m.baseCount (m.lineage c)] ([], [c]) = ((m.lineage c).reverse, []) ∧
      (∃ others, m.lineage c = c :: others) ∧
      (m.lineage c).Nodup ∧
      ∀ b, b ∈ m.lineage c ↔ ReflTransGen m.HasBase c b) ∧
    (∀ (o : Object K) (c : String), m.isInstance o c = true ↔
      ∃ i, o.instance? = some i ∧ ReflTransGen m.HasBase i.className c) ∧
    ∀ (i : Instance K) (name : String), m.FirstDecides D i name := by
  refine ⟨fun c => ⟨m.explores_iff c, m.iterate_pop_lineage c, m.lineage_eq_cons c, ?_,
    fun b => m.mem_lineage⟩, fun o c => m.isInstance_iff, fun i name => m.firstDecides i name⟩
  exact (m.explores_lineage c).nodup List.nodup_nil

end Calls

/-- A diamond with a base given twice, a cycle and a base that is not declared. -/
example : lineage { name := "shapes", doc := "", classes :=
      [("A", { bases := ["B", "C", "B"] }), ("B", { bases := ["D"] }),
        ("C", { bases := ["D", "X"] }), ("D", { bases := ["A"] })] } "A" =
    ["A", "B", "D", "C", "X"] := by
  cbv

end Module

end GradientGraph
