import GradientGraph.Host.Body

/-!
# Overload sets

The functions registered under one name, in the order in which they are
tried: by the ranks of their parameters, and as registered where those
agree. The first whose parameters take the arguments is called.
-/

set_option autoImplicit false

namespace GradientGraph

/-- Whether ranks come before others or agree with them: the first ranks that
differ decide, and a list comes before those it begins. -/
def ranksLe : List Nat → List Nat → Bool
  | [], _ => true
  | _ :: _, [] => false
  | a :: as, b :: bs => a < b || (a = b && ranksLe as bs)

theorem ranksLe_total (as bs : List Nat) : ranksLe as bs ∨ ranksLe bs as := by
  induction as generalizing bs with
  | nil => simp [ranksLe]
  | cons a as ih =>
    cases bs with
    | nil => simp [ranksLe]
    | cons b bs =>
      rcases Nat.lt_trichotomy a b with h | rfl | h
      · exact .inl (by simp [ranksLe, h])
      · simpa [ranksLe] using ih bs
      · exact .inr (by simp [ranksLe, h])

theorem ranksLe_trans {as bs cs : List Nat} (hab : ranksLe as bs) (hbc : ranksLe bs cs) :
    ranksLe as cs := by
  induction as generalizing bs cs with
  | nil => simp [ranksLe]
  | cons a as ih =>
    cases bs with
    | nil => simp [ranksLe] at hab
    | cons b bs =>
      cases cs with
      | nil => simp [ranksLe] at hbc
      | cons c cs =>
        simp only [ranksLe, Bool.or_eq_true, Bool.and_eq_true, decide_eq_true_eq] at *
        rcases hab with hab | ⟨rfl, hab⟩
        · rcases hbc with hbc | ⟨rfl, _⟩
          · exact .inl (Nat.lt_trans hab hbc)
          · exact .inl hab
        · rcases hbc with hbc | ⟨rfl, hbc⟩
          · exact .inl hbc
          · exact .inr ⟨rfl, ih hab hbc⟩

structure OverloadSet where
  bodies : List Body := []
  byRank : bodies.Pairwise (fun b c => ranksLe b.ranks c.ranks) := by exact .nil

namespace OverloadSet

/-- Puts `b` behind every body of lower or equal rank. -/
def insertList (b : Body) : List Body → List Body
  | [] => [b]
  | c :: cs => if ranksLe c.ranks b.ranks then c :: insertList b cs else b :: c :: cs

theorem mem_insertList {b c : Body} {cs : List Body} :
    c ∈ insertList b cs ↔ c = b ∨ c ∈ cs := by
  induction cs with
  | nil => simp [insertList]
  | cons d cs ih =>
    simp only [insertList]
    split
    · simp only [List.mem_cons, ih]
      exact or_left_comm
    · simp

theorem pairwise_insertList (b : Body) {cs : List Body}
    (h : cs.Pairwise (fun b c => ranksLe b.ranks c.ranks)) :
    (insertList b cs).Pairwise (fun b c => ranksLe b.ranks c.ranks) := by
  induction cs with
  | nil => simp [insertList]
  | cons d cs ih =>
    obtain ⟨hd, hcs⟩ := List.pairwise_cons.mp h
    simp only [insertList]
    split
    · rename_i hdb
      refine List.pairwise_cons.mpr ⟨fun c hc => ?_, ih hcs⟩
      rcases mem_insertList.mp hc with rfl | hc
      · exact hdb
      · exact hd c hc
    · rename_i hdb
      have hbd := (ranksLe_total d.ranks b.ranks).resolve_left hdb
      refine List.pairwise_cons.mpr ⟨fun c hc => ?_, h⟩
      rcases List.mem_cons.mp hc with rfl | hc
      · exact hbd
      · exact ranksLe_trans hbd (hd c hc)

def insert (s : OverloadSet) (b : Body) : OverloadSet :=
  ⟨insertList b s.bodies, pairwise_insertList b s.byRank⟩

def ranks (s : OverloadSet) : List (List Nat) := s.bodies.map (·.ranks)

end OverloadSet

structure Call (K : Type) where
  body : Body
  args : Param.Carriers K body.params

variable {K : Type} [Zero K]

def Body.call? (b : Body) (args : List (Object K)) : Option (Call K) :=
  (Param.convertAll? b.params args).map (⟨b, ·⟩)

def OverloadSet.select? (s : OverloadSet) (args : List (Object K)) : Option (Call K) :=
  s.bodies.findSome? (·.call? args)

def Call.run {D : Type} [One K] [Add K] [Mul K] [MulAdd K] [Capacity K] [NatCast K] [Calculus K]
    [Differential K D] [HostDerivative K D] (c : Call K) : HostM K D (Except Error (Reply K)) :=
  c.body.run c.args

end GradientGraph
