import GradientGraph.Proofs.Program.Rename
import GradientGraph.Proofs.Program.Repetition
import GradientGraph.Proofs.Program.Staleness

/-!
# Independent passes

A pass changes what the nodes of its plan hold and nothing else, and what it leaves there
depends on what was there and on the seeds of its program. So passes of two programs whose
plans have no node in common can change places: both orders end in one state. New
derivatives have stamps in the order in which they were made, so that the states are the
same up to the names of the stamps that the passes gave out.
-/

set_option autoImplicit false

namespace GradientGraph

open GradientGraph.Graph

section Shifts

/-- The names of stamps in a run that starts when `b` more stamps were given out after the
first `n`. -/
def shiftStamp (n b i : Nat) : Nat := if i < n then i else i + b

/-- The names of stamps once the `a` that come after the first `n` and the `b` that come next
have changed places. -/
def swapStamps (n a b : Nat) : Equiv.Perm Nat where
  toFun i := if i < n then i else if i < n + a then i + b else if i < n + a + b then i - a else i
  invFun i := if i < n then i else if i < n + b then i + a else if i < n + b + a then i - b else i
  left_inv := by
    intro i
    dsimp only
    split_ifs <;> omega
  right_inv := by
    intro i
    dsimp only
    split_ifs <;> omega

variable {n a b i : Nat}

theorem shiftStamp_injective (n b : Nat) : (shiftStamp n b).Injective := by
  intro i j h
  unfold shiftStamp at h
  split_ifs at h <;> omega

theorem shiftStamp_of_lt (h : i < n) : shiftStamp n b i = i := if_pos h

theorem shiftStamp_add (n b i : Nat) : shiftStamp n b (n + i) = n + b + i := by
  rw [shiftStamp, if_neg (by omega)]
  omega

theorem swapStamps_of_lt (h : i < n) : swapStamps n a b i = i := if_pos h

theorem swapStamps_first (h : i < n + a) : swapStamps n a b i = shiftStamp n b i := by
  change (if i < n then i else if i < n + a then i + b else _) = _
  rw [if_pos h]
  rfl

theorem swapStamps_second (h : i < n + b) : swapStamps n a b (shiftStamp n a i) = i := by
  change (if shiftStamp n a i < n then shiftStamp n a i
    else if shiftStamp n a i < n + a then shiftStamp n a i + b
    else if shiftStamp n a i < n + a + b then shiftStamp n a i - a else shiftStamp n a i) = i
  unfold shiftStamp
  split_ifs <;> omega

theorem swapStamps_zero (h : a = 0 ∨ b = 0) : swapStamps n a b = 1 := by
  ext i
  change (if i < n then i else if i < n + a then i + b else if i < n + a + b then i - a else i) = i
  split_ifs <;> omega

end Shifts

namespace Graph

variable {K D : Type} {f : Nat → Nat} {S T : Set NodeId} {g g₁ g₂ g₁₂ g₂₁ : Graph K D}
  {n : NodeId}

theorem Dated.content {V : Set Nat} (h : g.Dated V) {c : Cell K D}
    (hc : g.arena.content? n = some c) {i : Nat} (hi : i ∈ stampsOf c.derivative) :
    i < g.nextStamp := by
  refine h.own i (.inl ⟨n, ?_⟩)
  rw [derivative?, hc]
  exact hi

theorem Within.resembles {V : Set Nat} (hg : g.Dated V) (hb : g.Blank) (hb₁ : g₁.Blank)
    (h : g.Within T g₁) (hST : ∀ n ∈ S, n ∉ T) :
    g.Resembles (shiftStamp g.nextStamp (g₁.nextStamp - g.nextStamp)) S g₁ where
  content := by
    intro n hn
    rw [h.others n (hST n hn)]
    cases hc : g.arena.content? n with
    | none => rfl
    | some c =>
      rw [Option.map_some, Cell.rename_eq fun i hi => shiftStamp_of_lt (hg.content hc hi)]
  values := by rw [hb.1, hb₁.1]
  tangents := by
    rw [hb.2, hb₁.2]
    rfl
  stamp := by
    intro i
    have hle := h.stamp
    rw [shiftStamp_add]
    omega

variable {a b : Nat}

/-- Two changes at different nodes, made one after the other in both orders. -/
structure Crossed (S T : Set NodeId) (a b : Nat) (g g₁ g₂ g₁₂ g₂₁ : Graph K D) : Prop where
  apart : ∀ n ∈ S, n ∉ T
  first : g.Within S g₁
  second : g.Within T g₂
  secondAfter : g₁.Within T g₁₂
  firstAfter : g₂.Within S g₂₁
  firstStamp : g₁.nextStamp = g.nextStamp + a
  secondStamp : g₂.nextStamp = g.nextStamp + b
  firstAgain : g₁.Resembles (shiftStamp g.nextStamp b) S g₂₁
  secondAgain : g₂.Resembles (shiftStamp g.nextStamp a) T g₁₂

theorem Crossed.rename (h : Crossed S T a b g g₁ g₂ g₁₂ g₂₁) {V V₁ V₂ : Set Nat}
    (hg : g.Dated V) (hg₁ : g₁.Dated V₁) (hg₂ : g₂.Dated V₂) (hb₁₂ : g₁₂.Blank)
    (hb₂₁ : g₂₁.Blank) : g₂₁ = g₁₂.rename (swapStamps g.nextStamp a b) := by
  have hcontent (n : NodeId) : g₂₁.arena.content? n =
      (g₁₂.arena.content? n).map (·.rename (swapStamps g.nextStamp a b)) := by
    -- nodes of the first change, of the second one, and all others
    by_cases hS : n ∈ S
    · rw [h.firstAgain.content n hS, h.secondAfter.others n (h.apart n hS)]
      cases hc : g₁.arena.content? n with
      | none => rfl
      | some c =>
        rw [Option.map_some, Option.map_some, Cell.rename_congr fun i hi => ?_]
        refine (swapStamps_first ?_).symm
        rw [← h.firstStamp]
        exact hg₁.content hc hi
    · rw [h.firstAfter.others n hS]
      by_cases hT : n ∈ T
      · rw [h.secondAgain.content n hT, Option.map_map]
        cases hc : g₂.arena.content? n with
        | none => rfl
        | some c =>
          rw [Option.map_some, Function.comp_apply, Cell.rename_rename,
            Cell.rename_eq fun i hi => ?_]
          refine swapStamps_second ?_
          rw [← h.secondStamp]
          exact hg₂.content hc hi
      · rw [h.second.others n hT, h.secondAfter.others n hT, h.first.others n hS]
        cases hc : g.arena.content? n with
        | none => rfl
        | some c =>
          rw [Option.map_some, Cell.rename_eq fun i hi => swapStamps_of_lt (hg.content hc hi)]
  have hskeleton : g₂₁.skeleton = g₁₂.skeleton :=
    (h.firstAfter.skeleton.trans h.second.skeleton).trans
      (h.secondAfter.skeleton.trans h.first.skeleton).symm
  have harena : g₂₁.arena = (g₁₂.rename (swapStamps g.nextStamp a b)).arena := by
    refine Arena.ext_views (h := id) (fun x y _ hxy => hxy) (hskeleton.trans ?_) fun n => ?_
    · simp [skeleton, Graph.rename, Arena.mapContent, Function.comp_def, Cell.rename]
    · rw [hcontent n, Graph.rename, Arena.content?_mapContent]
  have hlabel := (h.firstAfter.label.trans h.second.label).trans
    (h.secondAfter.label.trans h.first.label).symm
  have hassigned := (h.firstAfter.assigned.trans h.second.assigned).trans
    (h.secondAfter.assigned.trans h.first.assigned).symm
  have haccess := (h.firstAfter.access.trans h.second.access).trans
    (h.secondAfter.access.trans h.first.access).symm
  have hstamp : g₂₁.nextStamp = g₁₂.nextStamp := by
    have h₂₁ := h.firstAgain.stamp 0
    have h₁₂ := h.secondAgain.stamp 0
    rw [h.firstStamp, Nat.add_zero, shiftStamp_add] at h₂₁
    rw [h.secondStamp, Nat.add_zero, shiftStamp_add] at h₁₂
    omega
  exact ext_fields harena (hb₂₁.1.trans hb₁₂.1.symm)
    (hb₂₁.2.trans (by rw [Graph.rename, hb₁₂.2, List.map_nil])) hlabel hstamp hassigned haccess

end Graph

theorem Plan.isFresh_of_skeleton {K D : Type} {g k : Graph K D} {plan : Plan}
    (h : k.skeleton = g.skeleton) : plan.isFresh k.arena = plan.isFresh g.arena := by
  refine Plan.isFresh_congr fun q _ => ?_
  have hversion (g : Graph K D) : g.skeleton.version? q.1 = g.arena.version? q.1 := by
    rw [skeleton, Arena.version?, Arena.node?_mapContent, Option.map_map]
    rfl
  rw [← hversion, h, hversion]

namespace Program

section Orders

variable {K D : Type}

/-- Whether two passes that ran in two orders came to the same, up to a permutation of the
stamps that they gave out. Evaluation gives out none. -/
def Swaps (g : Graph K D) (x y : Pass)
    (r r' : ((Program D × Except Error Unit) × Program D × Except Error Unit) × Graph K D) :
    Prop :=
  ∃ σ : Equiv.Perm Nat, (∀ i < g.nextStamp, σ i = i) ∧
    (x = .evaluate ∨ y = .evaluate → σ = 1) ∧
    r' = (((r.1.1.1.rename σ, r.1.1.2), r.1.2.1.rename σ, r.1.2.2), r.2.rename σ)

theorem Swaps.refl (g : Graph K D) (x y : Pass)
    (r : ((Program D × Except Error Unit) × Program D × Except Error Unit) × Graph K D) :
    Swaps g x y r r := by
  refine ⟨1, fun _ _ => rfl, fun _ => rfl, ?_⟩
  rw [Equiv.Perm.coe_one, rename_id, rename_id, Graph.rename_id]

end Orders

variable {K D : Type} [Zero K] [One K] [Add K] [Mul K] [MulAdd K] [Capacity K] [NatCast K]
  [Calculus K] [Differential K D] {f : Nat → Nat} {p q p₁ q₁ : Program D} {g h g₁ : Graph K D}
  {plan : Plan} {x y : Pass}

/-- A program with a plan refuses a pass on every graph with these formulas and edges, or
its plan is current. -/
theorem refused_or_goes (hplan : p.plan? = some plan) (hp : p.Recent g) (x : Pass) :
    (∃ e, ∀ k : Graph K D, k.skeleton = g.skeleton → x.run p k = some ((p, .error e), k)) ∨
      p.Current g plan ∧ x.check p plan = .ok () := by
  have hstate : p.state = .compiled plan := by
    unfold plan? at hplan
    split at hplan
    · rename_i hstate
      rw [hstate, Option.some.inj hplan]
    · cases hplan
  by_cases hfresh : plan.isFresh g.arena
  · cases hcheck : x.check p plan with
    | error e =>
      refine .inl ⟨e, fun k hk => ?_⟩
      rw [← Plan.isFresh_of_skeleton hk] at hfresh
      rw [Pass.run_eq, pass_eq, ready_of_compiled hstate, if_pos hfresh]
      simp only [hcheck]
    | ok _ =>
      by_cases hlive : plan.isLive g.arena
      · have hready : p.ready g = (p, .ok plan) := by rw [ready_of_compiled hstate, if_pos hfresh]
        exact .inr ⟨current_of_ready hp hready hlive, rfl⟩
      · refine .inl ⟨.nodeNotIndexed, fun k hk => ?_⟩
        have hdead : ¬plan.isLive k.arena := by
          intro hk'
          rw [Plan.isLive, List.all_eq_true] at hk' hlive
          exact hlive fun n hn => contains_of_skeleton hk.symm (hk' n hn)
        rw [← Plan.isFresh_of_skeleton hk] at hfresh
        rw [run_fresh hstate hfresh hcheck, if_neg hdead]
  · refine .inl ⟨.stalePlan, fun k hk => run_stale hstate ?_ x⟩
    rw [Plan.isFresh_of_skeleton hk]
    exact Bool.not_eq_true _ ▸ hfresh

theorem Current.follows_run (hf : f.Injective) (hp : p.Current g plan)
    (hp' : (p.rename f).Current h plan) (hg : g.Sound) (hgh : g.Resembles f plan.nodes h)
    (hcheck : x.check p plan = .ok ()) :
    Option.Rel (fun r r' => r.1.2 = .ok () ∧ r'.1 = (r.1.1.rename f, .ok ()) ∧
        Together f plan.nodes g h r.2 r'.2)
      (x.run p g) (x.run (p.rename f) h) := by
  have hkept : x.check ({ p with state := .compiled plan } : Program D) plan = .ok () := by
    cases x <;> exact hcheck
  have hrenamed : x.check (p.rename f) plan = .ok () := by
    cases x <;> exact hcheck
  have hbody := Pass.follows_body hf hp.keep hkept g h
    (Plan.Ordered.reads_within (Plan.ordered_of_current hp hg)) hgh
  rw [Pass.run_eq, Pass.run_eq, hp.pass_run hcheck, hp'.pass_run hrenamed]
  exact rel_map hbody fun _ _ hr =>
    ⟨rfl, congrArg (fun q => (q, (.ok () : Except Error Unit))) hr.1, hr.2⟩

/-- What a pass on a current plan changes. Nothing is remembered after it. -/
theorem Current.run_within (hp : p.Current g plan) (hg : g.Sound) (hb : g.Blank)
    (hcheck : x.check p plan = .ok ()) {r : Except Error Unit}
    (h : x.run p g = some ((q, r), g₁)) :
    g.Within plan.nodes g₁ ∧ g₁.Blank ∧
      (x = .evaluate → OnlyValues g g₁ ∧ ∀ n ∉ plan.inner, g₁.value? n = g.value? n) ∧
      (x ≠ .evaluate → OnlyDerivatives g g₁) := by
  have hself : (p.rename id).Current g plan := by rwa [rename_id]
  obtain ⟨_, -, -, -, ht⟩ := rel_left
    (hp.follows_run Function.injective_id hself hg (.refl g plan.nodes) hcheck) h
  refine ⟨ht.left, ?_⟩
  by_cases hx : x = .evaluate
  · subst hx
    obtain ⟨β, hβ⟩ := hg.named
    obtain ⟨-, -, hvalues, hothers, -⟩ := hp.evaluate_consistent hg
      (fun n hn => hp.visitable hb hβ n (Plan.mem_inner.mp hn).1) h
    refine ⟨⟨hvalues.values.trans hb.1, hvalues.tangents.trans hb.2⟩,
      fun _ => ⟨hvalues, hothers⟩, fun hx => absurd rfl hx⟩
  · have honly := onlyDerivatives_run hg hb hx h
    exact ⟨hb.congr honly, fun h => absurd h hx, fun _ => honly⟩

theorem Current.run_after {S : Set Nat} {T : Set NodeId} (hp : p.Current g plan) (hg : g.Sound)
    (hb : g.Blank) (hdated : g.Dated S) (hseeds : seedStamps p.seeds ⊆ S)
    (hcheck : x.check p plan = .ok ()) (hwithin : g.Within T g₁) (hb₁ : g₁.Blank)
    (hT : ∀ n ∈ plan.nodes, n ∉ T) :
    Option.Rel (fun r r' => r.1.2 = .ok () ∧
        r'.1 = (r.1.1.rename (shiftStamp g.nextStamp (g₁.nextStamp - g.nextStamp)), .ok ()) ∧
        Together (shiftStamp g.nextStamp (g₁.nextStamp - g.nextStamp)) plan.nodes g g₁ r.2 r'.2)
      (x.run p g) (x.run p g₁) := by
  have hsame : p.rename (shiftStamp g.nextStamp (g₁.nextStamp - g.nextStamp)) = p :=
    rename_eq fun i hi => shiftStamp_of_lt (hdated.known i (hseeds hi))
  have hcurrent := hp.congr hwithin.skeleton
  rw [← hsame] at hcurrent
  have hrun := hp.follows_run (shiftStamp_injective _ _) hcurrent hg
    (hwithin.resembles hdated hb hb₁ hT) hcheck
  rwa [hsame] at hrun

variable {P Q : Plan} {S : Set Nat} {N : Set NodeId}

/-- Two passes, each of which goes ahead, in both orders. -/
theorem Current.runs_swap (hp : p.Current g P) (hq : q.Current g Q) (hg : g.Sound)
    (hb : g.Blank) (hw : g.Whole S N) (hpS : seedStamps p.seeds ⊆ S)
    (hqS : seedStamps q.seeds ⊆ S) (hPQ : ∀ n ∈ P.nodes, n ∉ Q.nodes)
    (hx : x.check p P = .ok ()) (hy : y.check q Q = .ok ()) {a b : Except Error Unit}
    {g₂ : Graph K D} (h₁ : x.run p g = some ((p₁, a), g₁)) (h₂ : y.run q g = some ((q₁, b), g₂)) :
    ∃ q₂ g₁₂ p₂ g₂₁, y.run q g₁ = some ((q₂, b), g₁₂) ∧ x.run p g₂ = some ((p₂, a), g₂₁) ∧
      Swaps g x y (((p₁, a), q₂, b), g₁₂) (((p₂, a), q₁, b), g₂₁) := by
  obtain ⟨hwithin₁, hb₁, hvalues₁, -⟩ := hp.run_within hg hb hx h₁
  obtain ⟨hwithin₂, hb₂, hvalues₂, -⟩ := hq.run_within hg hb hy h₂
  -- each pass again, where the other one has worked elsewhere
  obtain ⟨⟨_, g₁₂⟩, h₁₂, rfl, rfl, ht₂⟩ :=
    rel_left (hq.run_after hg hb hw.dated hqS hy hwithin₁ hb₁ fun n hQ hP => hPQ n hP hQ) h₂
  obtain ⟨⟨_, g₂₁⟩, h₂₁, rfl, rfl, ht₁⟩ :=
    rel_left (hp.run_after hg hb hw.dated hpS hx hwithin₂ hb₂ hPQ) h₁
  have hdated₁ := (Pass.run_whole hw hpS h₁).2.dated
  have hdated₂ := (Pass.run_whole hw hqS h₂).2.dated
  obtain ⟨-, hb₁₂, -⟩ := (hq.congr hwithin₁.skeleton).run_within (hg.congr hwithin₁.skeleton) hb₁
    hy h₁₂
  obtain ⟨-, hb₂₁, -⟩ := (hp.congr hwithin₂.skeleton).run_within (hg.congr hwithin₂.skeleton) hb₂
    hx h₂₁
  have hstamp₁ := Nat.add_sub_of_le hwithin₁.stamp
  have hstamp₂ := Nat.add_sub_of_le hwithin₂.stamp
  have hcrossed : Crossed P.nodes Q.nodes (g₁.nextStamp - g.nextStamp)
      (g₂.nextStamp - g.nextStamp) g g₁ g₂ g₁₂ g₂₁ :=
    ⟨hPQ, hwithin₁, hwithin₂, ht₂.right, ht₁.right, hstamp₁.symm, hstamp₂.symm, ht₁.resembles,
      ht₂.resembles⟩
  refine ⟨_, _, _, _, h₁₂, h₂₁, swapStamps g.nextStamp (g₁.nextStamp - g.nextStamp)
    (g₂.nextStamp - g.nextStamp), fun i hi => swapStamps_of_lt hi,
    fun hxy => swapStamps_zero ?_, ?_⟩
  · refine hxy.imp (fun hx => ?_) fun hy => ?_
    · rw [(hvalues₁ hx).1.stamp, Nat.sub_self]
    · rw [(hvalues₂ hy).1.stamp, Nat.sub_self]
  -- whichever pass comes second gives out its stamps behind those of the other
  · have hfirst : p₁.rename (shiftStamp g.nextStamp (g₂.nextStamp - g.nextStamp)) =
        p₁.rename (swapStamps g.nextStamp (g₁.nextStamp - g.nextStamp)
          (g₂.nextStamp - g.nextStamp)) := rename_congr fun i hi => by
      rw [swapStamps_first (hstamp₁.symm ▸ hdated₁.known i (.inl hi))]
    have hsecond : (q₁.rename (shiftStamp g.nextStamp (g₁.nextStamp - g.nextStamp))).rename
        (swapStamps g.nextStamp (g₁.nextStamp - g.nextStamp) (g₂.nextStamp - g.nextStamp)) =
          q₁ := by
      rw [rename_rename]
      exact rename_eq fun i hi => swapStamps_second (hstamp₂.symm ▸ hdated₂.known i (.inl hi))
    rw [hsecond, hfirst, hcrossed.rename hw.dated hdated₁ hdated₂ hb₁₂ hb₂₁]

theorem run_skeleton (hp : p.Recent g) (hg : g.Sound) (hb : g.Blank)
    {r : (Program D × Except Error Unit) × Graph K D} (h : x.run p g = some r) :
    r.2.skeleton = g.skeleton := by
  obtain ⟨e, he⟩ | ⟨plan, hcurrent, hcheck⟩ := refused_or_current hp x
  · rw [he] at h
    cases h
    rfl
  · exact (hcurrent.run_within hg hb hcheck h).1.skeleton

/-- Passes of programs whose plans have no node in common, in both orders. A pass that is
refused is refused in both, and shapes that do not fit are met in both. -/
theorem Recent.runs_commute (hp : p.Recent g) (hq : q.Recent g) (hP : p.plan? = some P)
    (hQ : q.plan? = some Q) (hg : g.Sound) (hb : g.Blank) (hw : g.Whole S N)
    (hpS : seedStamps p.seeds ⊆ S) (hqS : seedStamps q.seeds ⊆ S)
    (hPQ : ∀ n ∈ P.nodes, n ∉ Q.nodes) (x y : Pass) :
    Option.Rel (Swaps g x y)
      ((do let a ← x.run p
           let b ← y.run q
           return (a, b) : GraphM K D _) g)
      ((do let b ← y.run q
           let a ← x.run p
           return (a, b) : GraphM K D _) g) := by
  rw [run_bind, run_bind]
  -- what is refused here is refused after the other pass as well
  rcases refused_or_goes hP hp x with ⟨e, he⟩ | ⟨hcp, hx⟩
  · rw [he g rfl, Option.bind_some, run_bind]
    refine rel_bind_same _ fun r hr => ?_
    rw [run_bind, he r.2 (run_skeleton hq hg hb hr)]
    exact .some (.refl ..)
  rcases refused_or_goes hQ hq y with ⟨e, he⟩ | ⟨hcq, hy⟩
  · rw [he g rfl, Option.bind_some, run_bind]
    refine rel_bind_same _ fun r hr => ?_
    rw [run_bind, he r.2 (run_skeleton hp hg hb hr)]
    exact .some (.refl ..)
  have hQP : ∀ n ∈ Q.nodes, n ∉ P.nodes := fun n hQ hP => hPQ n hP hQ
  -- both go ahead, unless shapes do not fit
  cases h₁ : x.run p g with
  | none =>
    cases h₂ : y.run q g with
    | none => exact .none
    | some r =>
      obtain ⟨hwithin, hb₂, -⟩ := hcq.run_within hg hb hy h₂
      have hnone := hcp.run_after hg hb hw.dated hpS hx hwithin hb₂ hPQ
      rw [h₁] at hnone
      rw [Option.bind_none, Option.bind_some, run_bind, rel_none hnone]
      exact .none
  | some r =>
    cases h₂ : y.run q g with
    | none =>
      obtain ⟨hwithin, hb₁, -⟩ := hcp.run_within hg hb hx h₁
      have hnone := hcq.run_after hg hb hw.dated hqS hy hwithin hb₁ hQP
      rw [h₂] at hnone
      rw [Option.bind_none, Option.bind_some, run_bind, rel_none hnone]
      exact .none
    | some r' =>
      obtain ⟨q₂, g₁₂, p₂, g₂₁, h₁₂, h₂₁, hswaps⟩ :=
        hcp.runs_swap hcq hg hb hw hpS hqS hPQ hx hy h₁ h₂
      rw [Option.bind_some, Option.bind_some, run_bind, run_bind, h₁₂, h₂₁]
      exact .some hswaps

end Program

namespace Sharing

open Workbench

variable {K D : Type} [Zero K] [Calculus K] (x : K)

def first : NodeId := ⟨0, 0⟩

def second : NodeId := ⟨1, 0⟩

def formula : Formula K :=
  .share 2 (.binary (.cwise .add) (.share 0 (.literal (.scalar x)))
    (.share 1 (.literal (.scalar x))))

def value : Value K := Twice.doubled .add (.scalar x)

def node : Node (Cell K D) where
  content := { value := value x, formula := some (formula x) }
  version := 1

def operation : Workbench K D where
  graph := { nextLabel := 3 }
  items := [("c", .operation .scalar (formula x))]

def one : Workbench K D where
  graph := { arena := { slots := #[⟨0, some (node x)⟩], inserted := 1 }, nextLabel := 3 }
  items := [("c", .operation .scalar (formula x)), ("y", .var .scalar first)]

def two : Workbench K D where
  graph :=
    { arena := { slots := #[⟨0, some (node x)⟩, ⟨0, some (node x)⟩], inserted := 2 }
      nextLabel := 3 }
  items := [("c", .operation .scalar (formula x)), ("y", .var .scalar first),
    ("z", .var .scalar second)]

def program (n : NodeId) (state : PlanState) : Program D where
  targets := .ofList [n]
  sources := .empty
  state := state

def plan (n : NodeId) : Plan where
  order := [n]
  sources := .empty
  versions := [(n, 1)]

def programs (s t : PlanState) : Workbench K D :=
  { (two x : Workbench K D) with programs := [("f", program first s), ("h", program second t)] }

theorem compile_program {n : NodeId} (hn : n = first ∨ n = second) (state : PlanState) :
    (program n state : Program D).compile (two x : Workbench K D).graph =
      (program n (.compiled (plan n)), .ok ()) := by
  apply Program.compile_of_build
  let s : Plan.Search := { opened := [⟨n, []⟩], versions := [(n, 1)] }
  let t : Plan.Search := { s with opened := [], closed := [n] }
  have hrun : Plan.Search.run (two x : Workbench K D).graph.arena (·.formula.isSome) .empty s =
      .ok t := by
    rw [Plan.Search.run_next (t := t) rfl, Plan.Search.run_done rfl]
  have henter : Plan.Search.enter (two x : Workbench K D).graph.arena (·.formula.isSome) .empty n
      {} = .ok s := by
    rcases hn with rfl | rfl <;> rfl
  exact Plan.build_of_runAll rfl (Plan.Search.runAll_next List.not_mem_nil henter hrun) rfl

variable [Add K] [Mul K] [MulAdd K] [Capacity K] [NatCast K]

theorem newComputed_formula {g : Graph K D} (hb : g.Blank) : newComputed (formula x) g =
    some ((g.arena.insert { value := value x }).1, { g with
      arena := (g.arena.insert { value := value x }).2.modify
        (g.arena.insert { value := value x }).1 (Node.attach (formula x) (value x)) }) := by
  obtain ⟨arena, values, tangents, label, stamp, assigned, access⟩ := g
  obtain ⟨rfl, rfl⟩ := hb
  let g : Graph K D := ⟨arena, [], [], label, stamp, assigned, access⟩
  have hevaluate : (formula x).expression.evaluate g = some (value x,
      ((g.remember 0 (.scalar x)).remember 1 (.scalar x)).remember 2 (value x)) := rfl
  have hforget : (((g.remember 0 (.scalar x)).remember 1 (.scalar x)).remember 2
      (value x)).forget (formula x) = g := by
    simp [g, Graph.forget, remember, formula, Formula.labels, Formula.share, Formula.binary,
      Footprint.insert, Footprint.join]
  rw [newComputed_run hevaluate, hforget]
  rfl

variable [One K] [NumberText K] [Differential K D] [HostDerivative K D]

theorem step_operation : ({} : Workbench K D).step
    (.binary (.operator .add) (.literal (.scalar x)) (.literal (.scalar x)) "c") =
      some (operation x, .ok (.text "operation")) := by
  change some (({ graph := (operation x : Workbench K D).graph } : Workbench K D).store "c"
    (.operation .scalar (formula x)), _) = _
  rw [store_new _ rfl]
  rfl

theorem step_first : (operation x : Workbench K D).step (.newVariable (.ref "c") "y") =
    some (one x, .ok (.text "variable")) := by
  change (operation x : Workbench K D).make "y"
    (do return .var .scalar (← newComputed (formula x))) = _
  rw [make, Workbench.onGraph, run_bind, newComputed_formula x ⟨rfl, rfl⟩]
  change some (({ operation x with graph := (one x : Workbench K D).graph } :
    Workbench K D).store "y" (.var .scalar first), _) = _
  rw [store_new _ rfl]
  rfl

theorem step_second : (one x : Workbench K D).step (.newVariable (.ref "c") "z") =
    some (two x, .ok (.text "variable")) := by
  change (one x : Workbench K D).make "z"
    (do return .var .scalar (← newComputed (formula x))) = _
  rw [make, Workbench.onGraph, run_bind, newComputed_formula x ⟨rfl, rfl⟩]
  change some (({ one x with graph := (two x : Workbench K D).graph } :
    Workbench K D).store "z" (.var .scalar second), _) = _
  rw [store_new _ rfl]
  rfl

theorem unprobed : (programs x (.compiled (plan first)) (.compiled (plan second)) :
    Workbench K D).Unprobed := by
  have hvariables : (two x : Workbench K D).Unprobed :=
    ((Unprobed.start.step _ id (step_operation x)).step _ id (step_first x)).step _ id
      (step_second x)
  have hprograms : (programs x .absent .absent : Workbench K D).Unprobed :=
    (hvariables.step (.program ["y"] [] "f") id rfl).step (.program ["z"] [] "h") id rfl
  have hfirst : (programs x (.compiled (plan first)) .absent : Workbench K D).Unprobed :=
    hprograms.step (.run "f" .compile) id
      (step_compile_ok rfl (compile_program x (.inl rfl) .absent))
  exact hfirst.step (.run "h" .compile) id
    (step_compile_ok rfl (compile_program x (.inr rfl) .absent))

end Sharing

namespace Setting

variable {K D : Type} [Zero K] [One K] [Add K] [Mul K] [MulAdd K] [Capacity K] [NatCast K]
  [Calculus K] [BEq K] [NumberText K] [Differential K D] [HostDerivative K D]

/-- What can be reached without a step that evaluates or traverses a formula by itself. -/
inductive Unprobed : Setting K D → Prop where
  | session {s : Session K D} (h : s.Reachable) : Unprobed (.session s)
  | workbench {w : Workbench K D} (h : w.Unprobed) : Unprobed (.workbench w)

variable {s : Setting K D}

theorem Unprobed.reachable (h : s.Unprobed) : s.Reachable := by
  cases h with
  | session h => exact .session h
  | workbench h => exact .workbench h.reachable

theorem Unprobed.blank (h : s.Unprobed) : s.graph.Blank := by
  cases h with
  | session h => exact h.confined.blank
  | workbench h => exact h.confined.blank

/-- Passes are confined to the nodes of their plan, and independent passes commute. Unless
generations or versions have come round since the plan was made, which takes a graph that is
no longer young, evaluation that goes ahead changes values of computed nodes of the plan only,
and a differentiating pass derivatives of nodes of the plan only. What a pass leaves there
follows from what was there and from the seeds of its program: where another graph holds the
same there, up to the names of stamps, the program leaves the same in it. Any passes of two
programs whose plans have no node in common lead to one state in either order, with the stamps
that they give out permuted if both differentiate. -/
theorem passes_confined (hs : s.Unprobed) {f : ProgramKey} {p : Program D}
    (hp : s.program? f = some p) :
    (s.graph.Young → p.Recent s.graph) ∧
    (p.Recent s.graph →
      (∀ x q g, Pass.run x p s.graph = some ((q, .ok ()), g) → ∃ plan, q.plan? = some plan ∧
        (x = .evaluate → OnlyValues s.graph g ∧
          ∀ n ∉ plan.inner, g.value? n = s.graph.value? n) ∧
        (x ≠ .evaluate → OnlyDerivatives s.graph g ∧ g.assigned = s.graph.assigned ∧
          ∀ n ∉ plan.order, g.derivative? n = s.graph.derivative? n) ∧
        ∀ (σ : Nat → Nat) (h : Graph K D), σ.Injective → (p.rename σ).Current h plan →
          s.graph.Resembles σ plan.nodes h →
            ∃ h', Pass.run x (p.rename σ) h = some ((q.rename σ, .ok ()), h') ∧
              g.Resembles σ plan.nodes h') ∧
      ∀ k q P Q, s.program? k = some q → q.Recent s.graph → p.plan? = some P →
        q.plan? = some Q → (∀ n ∈ P.order, n ∉ Q.order) → ∀ x y,
          Option.Rel (Program.Swaps s.graph x y)
            ((do let a ← Pass.run x p
                 let b ← Pass.run y q
                 return (a, b) : GraphM K D _) s.graph)
            ((do let b ← Pass.run y q
                 let a ← Pass.run x p
                 return (a, b) : GraphM K D _) s.graph)) := by
  have hreachable := hs.reachable
  have hsound := hreachable.sound
  refine ⟨fun hyoung => (hreachable.remembers hp).recent hyoung, fun hrecent => ⟨?_, ?_⟩⟩
  · intro x q g hrun
    obtain ⟨plan, hcurrent, hcheck⟩ := Program.current_of_ok hrecent hrun
    obtain ⟨hwithin, -, hvalues, hderivatives⟩ :=
      hcurrent.run_within hsound hs.blank hcheck hrun
    refine ⟨plan, (Program.current_iff_of_run hrecent hrun).mp hcurrent, hvalues,
      fun hx => ⟨hderivatives hx, hwithin.assigned, fun n hn => hwithin.derivative? hn⟩, ?_⟩
    intro σ h hσ hh hresembles
    obtain ⟨⟨_, h'⟩, hrun', -, rfl, ht⟩ := rel_left
      (hcurrent.follows_run hσ hh hsound hresembles hcheck) hrun
    exact ⟨h', hrun', ht.resembles⟩
  · intro k q P Q hq hqrecent hP hQ hPQ x y
    exact hrecent.runs_commute hqrecent hP hQ hsound hs.blank hreachable.whole
      (Scene.seedStamps_subset hp) (Scene.seedStamps_subset hq) hPQ x y

/-- Two variables are computed from one operation, and two programs have a reverse pass
each. -/
theorem passes_confined_sharing :
    let s : Setting Float Float := .workbench (Sharing.programs 3
      (.compiled (Sharing.plan Sharing.first)) (.compiled (Sharing.plan Sharing.second)))
    let x : Pass := .pullGradientAt Sharing.first
    let y : Pass := .pullGradientAt Sharing.second
    ∃ p q r r', s.Unprobed ∧ s.program? (.name "f") = some p ∧ s.program? (.name "h") = some q ∧
      p.Recent s.graph ∧ q.Recent s.graph ∧
      (do let a ← x.run p
          let b ← y.run q
          return (a, b) : GraphM Float Float _) s.graph = some r ∧
      (do let b ← y.run q
          let a ← x.run p
          return (a, b) : GraphM Float Float _) s.graph = some r' ∧
      r.1.1.2 = .ok () ∧ r.1.2.2 = .ok () ∧ Program.Swaps s.graph x y r r' := by
  intro s x y
  have hs : s.Unprobed := .workbench (Sharing.unprobed (D := Float) (3 : Float))
  have hyoung : s.graph.Young := ⟨by decide, by decide⟩
  obtain ⟨hp, hpasses⟩ := passes_confined hs (f := .name "f") rfl
  obtain ⟨hq, -⟩ := passes_confined hs (f := .name "h") rfl
  have hdisjoint : ∀ n ∈ (Sharing.plan Sharing.first).order,
      n ∉ (Sharing.plan Sharing.second).order := by decide
  obtain ⟨-, hswap⟩ := hpasses (hp hyoung)
  have hswap := hswap (.name "h") _ _ _ rfl (hq hyoung) rfl rfl hdisjoint x y
  obtain ⟨r', hr', hswaps⟩ := rel_left hswap rfl
  exact ⟨_, _, _, r', hs, rfl, rfl, hp hyoung, hq hyoung, rfl, hr', rfl, rfl, hswaps⟩

/-- A pass reaches further where its plan is taken for fresh because generations have come
round: the variable read is none of the plan, and gets a derivative. And what a reverse pass
leaves depends on more than the numbers that the nodes of its plan hold: a target that is
given the derivative that it holds anyway starts from that one, and not from its seed. -/
theorem pass_escapes :
    (∃ (s : Setting Float Float) (p q : Program Float) (n : NodeId) (g : Graph Float Float),
      s.Unprobed ∧ s.program? (.name "f") = some p ∧ p.plan? = some Twice.plan ∧
      Pass.run (.pullGradientAt Twice.target) p s.graph = some ((q, .ok ()), g) ∧
      n ∉ Twice.plan.order ∧ s.graph.differential? n = none ∧ g.differential? n = some 1) ∧
    ∃ (s : Setting Float Float) (p q q₁ q₂ : Program Float) (g k g' k' : Graph Float Float),
      s.Unprobed ∧ s.program? (.name "f") = some p ∧
      Pass.pullGradient.run p s.graph = some ((q, .ok ()), g) ∧
      Graph.giveDerivative Twice.source 3 g = some ((), k) ∧
      k.differential? = g.differential? ∧ k.statics = g.statics ∧
      Pass.pullGradient.run q g = some ((q₁, .ok ()), g') ∧
      Pass.pullGradient.run q k = some ((q₂, .ok ()), k') ∧
      g'.differential? Twice.source = some 3 ∧ k'.differential? Twice.source = some 5 := by
  constructor
  · exact ⟨.workbench (Recycling.wrapped (.scalar 3) (.scalar 5) none none 0), _, _,
      Recycling.other, _, .workbench (Recycling.unprobed_wrapped _ _), rfl, rfl, rfl, by decide,
      rfl, by decide +kernel⟩
  · let w : Workbench Float Float :=
      Doubling.Seeded.programs .add 3 (some ⟨1, 1⟩) (some ⟨0, 1⟩) 2 (.compiled Doubling.Seeded.plan)
    let p : Program Float :=
      { Doubling.Seeded.program with state := .compiled Doubling.Seeded.plan }
    have hw : w.Unprobed := Doubling.Seeded.unprobed .add 3 _ _ 2
      (Doubling.Seeded.unprobed_both (D := Float) .add 3 1 1)
    have hall : ((Pass.pullGradient.run p w.graph).bind fun r =>
        (Pass.pullGradient.run r.1.1 r.2).bind fun r₁ =>
          (Graph.giveDerivative Twice.source 3 r.2).bind fun k =>
            (Pass.pullGradient.run r.1.1 k.2).map fun r₂ =>
              ((r.1.2, r.2.arena.contains Twice.source, r.2.differential? Twice.source),
                (r₁.1.2, r₁.2.differential? Twice.source),
                (r₂.1.2, r₂.2.differential? Twice.source))) =
        some ((.ok (), true, some 3), (.ok (), some 3), (.ok (), some 5)) := by decide +kernel
    obtain ⟨⟨⟨q, r⟩, g⟩, hfirst, h⟩ := Option.bind_eq_some_iff.mp hall
    obtain ⟨⟨⟨q₁, r₁⟩, g'⟩, hagain, h⟩ := Option.bind_eq_some_iff.mp h
    obtain ⟨⟨⟨⟩, k⟩, hgive, h⟩ := Option.bind_eq_some_iff.mp h
    obtain ⟨⟨⟨q₂, r₂⟩, k'⟩, hgiven, h⟩ := Option.map_eq_some_iff.mp h
    simp only [Prod.mk.injEq] at h
    obtain ⟨⟨rfl, hlive, hthree⟩, ⟨rfl, hsame⟩, rfl, hfive⟩ := h
    -- the number that the derivative is set to is the one that it has
    obtain ⟨_, hk, honly, hupdate⟩ :=
      rel_left (Graph.giveDerivative_run hlive fun _ => some (3 : Float)) rfl
    cases hgive.symm.trans hk
    exact ⟨.workbench w, p, q, q₁, q₂, g, k, g', k', .workbench hw, rfl, hfirst, hgive,
      hupdate.trans (Function.update_eq_self_iff.mpr hthree.symm), honly.statics, hagain, hgiven,
      hsame, hfive⟩

end Setting

end GradientGraph
