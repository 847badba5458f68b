import GradientGraph.Proofs.Graph.Residue

/-!
# Computations on values

Evaluation reads values and formulas. A variable gets the value that is found for its
formula, which is the plain one as long as nothing is remembered of it, and nothing else
in the graph is changed. `Graph.frame` is all that is left of the arena when the values
are taken out.
-/

set_option autoImplicit false

namespace GradientGraph

namespace Expression

variable {K : Type} [Zero K] [One K] [Add K] [Mul K] [MulAdd K] [Capacity K] [NatCast K]
  [Calculus K]

theorem valueUnder_congr {e : Expression K} {ρ σ : NodeId → Option (Value K)}
    (h : ∀ n ∈ e.reads, ρ n = σ n) : e.valueUnder ρ = e.valueUnder σ := by
  induction e with
  | literal v => rfl
  | read label n => exact h n (List.mem_singleton.mpr rfl)
  | unary k a ih => rw [valueUnder, valueUnder, ih h]
  | binary k l r ihl ihr =>
    rw [valueUnder, valueUnder, ihl fun n hn => h n (List.mem_append_left _ hn),
      ihr fun n hn => h n (List.mem_append_right _ hn)]
  | shared label e ih => exact ih h

end Expression

namespace Graph

variable {K D : Type}

def frame (g : Graph K D) : Arena (Option (Stamped D) × Option (Formula K)) :=
  g.arena.mapContent fun c => (c.derivative, c.formula)

structure OnlyValues (g g' : Graph K D) : Prop where
  frame : g'.frame = g.frame
  values : g'.values = g.values
  tangents : g'.tangents = g.tangents
  label : g'.nextLabel = g.nextLabel
  stamp : g'.nextStamp = g.nextStamp
  assigned : g'.assigned = g.assigned
  access : g'.access = g.access

namespace OnlyValues

variable {g g' g'' : Graph K D}

theorem refl (g : Graph K D) : OnlyValues g g := ⟨rfl, rfl, rfl, rfl, rfl, rfl, rfl⟩

theorem trans (h : OnlyValues g g') (h' : OnlyValues g' g'') : OnlyValues g g'' where
  frame := h'.frame.trans h.frame
  values := h'.values.trans h.values
  tangents := h'.tangents.trans h.tangents
  label := h'.label.trans h.label
  stamp := h'.stamp.trans h.stamp
  assigned := h'.assigned.trans h.assigned
  access := h'.access.trans h.access

theorem unique (h : OnlyValues g g') (h' : OnlyValues g g'') (hvalue : g'.value? = g''.value?) :
    g' = g'' := by
  have harena : g'.arena = g''.arena := by
    apply Arena.ext_views (h := fun c : Cell K D => c.value) ?_
      (h.frame.trans h'.frame.symm) fun n => congrFun hvalue n
    rintro ⟨v, d, a⟩ ⟨w, d', b⟩ hrest (rfl : v = w)
    obtain ⟨rfl, rfl⟩ := Prod.mk.inj hrest
    rfl
  exact ext_fields harena (h.values.trans h'.values.symm) (h.tangents.trans h'.tangents.symm)
    (h.label.trans h'.label.symm) (h.stamp.trans h'.stamp.symm)
    (h.assigned.trans h'.assigned.symm) (h.access.trans h'.access.symm)

end OnlyValues

variable {g g' : Graph K D} {n m : NodeId} {a : Formula K}

theorem formula?_frame (g : Graph K D) (n : NodeId) :
    (g.frame.content? n).bind (·.2) = g.formula? n := by
  rw [frame, Arena.content?_mapContent, Option.bind_map]
  rfl

section SameFrame

variable (h : g'.frame = g.frame)
include h

theorem formula?_of_frame : g'.formula? = g.formula? := by
  funext n
  rw [← formula?_frame, h, formula?_frame]

theorem contains_of_frame (n : NodeId) : g'.arena.contains n = g.arena.contains n := by
  rw [← Arena.contains_mapContent (fun c : Cell K D => (c.derivative, c.formula)) g'.arena,
    ← Arena.contains_mapContent (fun c : Cell K D => (c.derivative, c.formula)) g.arena]
  exact congrArg (·.contains n) h

end SameFrame

theorem frame_setValue (g : Graph K D) (n : NodeId) (v : Value K) :
    (g.setValue n v).frame = g.frame := by
  unfold setValue updateCell frame
  apply Arena.mapContent_modify
  intro x
  rfl

theorem value?_setValue (hn : g.arena.contains n) (v : Value K) :
    (g.setValue n v).value? = Function.update g.value? n (some v) := by
  obtain ⟨x, hx⟩ := Arena.contains_iff.mp hn
  funext m
  rw [value?, setValue, content?_updateCell]
  by_cases h : m = n
  · subst h
    simp [Arena.content?, hx]
  · rw [if_neg h, Function.update_of_ne h]
    rfl

theorem setValue_self {v : Value K} (h : g.value? n = some v) : g.setValue n v = g := by
  obtain ⟨c, hc, rfl⟩ := Option.map_eq_some_iff.mp h
  rw [setValue, updateCell, Arena.modify_eq_self]
  intro x hx
  obtain rfl : x.content = c := by simpa [Arena.content?, hx] using hc
  rfl

theorem Visitable.congrValues {β : Label → Expression K} (h : g.Visitable β n)
    (hg : OnlyValues g g') : g'.Visitable β n where
  live := by rw [contains_of_frame hg.frame, h.live]
  named := by
    rw [formula?_of_frame hg.frame]
    exact h.named
  forgot := by
    intro a ha
    rw [formula?_of_frame hg.frame] at ha
    rw [Forgot, hg.values, hg.tangents]
    exact h.forgot a ha

section Evaluation

variable [Zero K] [Add K] [Mul K] [MulAdd K] [Capacity K] [NatCast K] [Calculus K]

theorem remembering_of_evaluate {e : Expression K} {v : Value K}
    (h : (e.evaluate : GraphM K D (Value K)) g = some (v, g')) : ∃ vs, g' = g.remembering vs := by
  induction e generalizing g g' v with
  | literal w =>
    cases h
    exact ⟨[], rfl⟩
  | read label n =>
    obtain ⟨c, g₁, hc, h⟩ := exists_of_bind h
    cases h
    rw [run_cell] at hc
    obtain ⟨_, -, hc⟩ := Option.map_eq_some_iff.mp hc
    cases hc
    exact ⟨[], rfl⟩
  | unary k a ih =>
    obtain ⟨x, g₁, hx, h⟩ := exists_of_bind h
    cases h
    exact ih hx
  | binary k l r ihl ihr =>
    obtain ⟨x, g₁, hx, h⟩ := exists_of_bind h
    obtain ⟨y, g₂, hy, h⟩ := exists_of_bind h
    rw [run_ofOption] at h
    obtain ⟨_, -, h⟩ := Option.map_eq_some_iff.mp h
    cases h
    obtain ⟨vs, rfl⟩ := ihl hx
    obtain ⟨ws, rfl⟩ := ihr hy
    exact ⟨ws ++ vs, congrArg (fun us => { g with values := us }) (List.append_assoc ..).symm⟩
  | shared label e ih =>
    rw [Expression.evaluate, run_bind, run_get, Option.bind_some] at h
    cases hlabel : g.remembered? label with
    | some w =>
      simp only [hlabel] at h
      cases h
      exact ⟨[], rfl⟩
    | none =>
      simp only [hlabel] at h
      obtain ⟨x, g₁, hx, h⟩ := exists_of_bind h
      cases h
      obtain ⟨vs, rfl⟩ := ih hx
      exact ⟨(label, v) :: vs, rfl⟩

theorem arena_of_evaluate {e : Expression K} {v : Value K}
    (h : (e.evaluate : GraphM K D (Value K)) g = some (v, g')) : g'.arena = g.arena := by
  obtain ⟨vs, rfl⟩ := remembering_of_evaluate h
  rfl

theorem frame_of_evaluateNode {u : Unit}
    (h : (evaluateNode n : GraphM K D Unit) g = some (u, g')) : g'.frame = g.frame := by
  obtain ⟨c, g₁, hc, h⟩ := exists_of_bind h
  rw [run_cell] at hc
  obtain ⟨_, -, hc⟩ := Option.map_eq_some_iff.mp hc
  cases hc
  cases hformula : c.formula with
  | none =>
    simp only [hformula] at h
    cases h
    rfl
  | some a =>
    simp only [hformula] at h
    obtain ⟨v, g₂, hv, h⟩ := exists_of_bind h
    cases h
    have harena : g₂.arena = g.arena := arena_of_evaluate hv
    refine (frame_setValue (g₂.forget a) n v).trans ?_
    exact congrArg (Arena.mapContent fun c : Cell K D => (c.derivative, c.formula)) harena

/-- Whatever was remembered before, a loop of evaluations leaves nothing remembered of the
formulas that it went through. -/
theorem forgot_of_evaluateNodes {ns : List NodeId} {u : Unit} (hg : g.Confined Set.univ)
    (h : (ns.forM evaluateNode : GraphM K D Unit) g = some (u, g')) :
    g'.frame = g.frame ∧ ∀ n ∈ ns, ∀ a, g.formula? n = some a → g'.Forgot a := by
  induction ns generalizing g with
  | nil =>
    cases h
    exact ⟨rfl, by simp⟩
  | cons n ns ih =>
    obtain ⟨_, g₁, hfirst, hrest⟩ := exists_of_bind (m := evaluateNode n) h
    have hframe := frame_of_evaluateNode hfirst
    obtain ⟨hframe', hforgot⟩ := ih (tidy_evaluateNode n _ g _ g₁ hg hfirst) hrest
    refine ⟨hframe'.trans hframe, ?_⟩
    intro m hm a ha
    rcases List.mem_cons.mp hm with rfl | hm
    · exact (tidy_forM tidy_evaluateNode ns _ g₁ _ g'
        (evaluateNode_confined ha (hg.all a) hfirst) hrest).forgot
    · exact hforgot m hm a (by rw [formula?_of_frame hframe, ha])

variable {β : Label → Expression K}

/-- Whether the formula is evaluated to `x`, or not at all, and nothing is changed but
what is remembered. -/
def Finds (a : Formula K) (g : Graph K D) (x : Option (Value K)) : Prop :=
  ∃ vs, (a.expression.evaluate : GraphM K D (Value K)) g = x.map (·, g.remembering vs)

theorem finds_remembered (hβ : a.expression.NamedBy β) :
    Finds a g (a.expression.valueFrom g.remembered? g.value?) := by
  obtain ⟨vs, -, hrun⟩ := Expression.evaluate_adds hβ (g := g) [] (by simp)
  exact ⟨_, hrun⟩

theorem Finds.newComputed {x : Option (Value K)} (h : Finds a g x) (hp : g.arena.Packed) :
    Option.Rel (fun v r => g.value? r.1 = none ∧ r.2.value? = Function.update g.value? r.1 (some v))
      x ((newComputed a : GraphM K D NodeId) g) := by
  obtain ⟨vs, hrun⟩ := h
  cases x with
  | none =>
    rw [Option.map_none] at hrun
    rw [Graph.newComputed, run_bind, hrun]
    exact .none
  | some v =>
    rw [Option.map_some] at hrun
    rw [newComputed_run hrun]
    have harena : (g.remembering vs).arena = g.arena := rfl
    refine .some ⟨?_, ?_⟩
    · simp only [harena]
      rw [value?, Arena.content?, hp.fresh]
      rfl
    · funext m
      simp only [value?, Arena.content?, harena]
      rw [Arena.node?_modify, hp.node?_insert]
      by_cases hm : m = (g.arena.insert { value := v }).1
      · subst hm
        simp [Node.attach]
      · simp [hm, value?, Arena.content?]

theorem children?_newComputed {g g' : Graph K D} {a : Formula K} {n : NodeId}
    (hg : g.arena.Packed) (h : newComputed a g = some (n, g')) :
    g'.arena.children? n = some a.children := by
  obtain ⟨v, g₁, hv, h⟩ := exists_of_bind h
  obtain ⟨m, g₂, hnew, h⟩ := exists_of_bind h
  obtain ⟨displaced, g₃, hattach, h⟩ := exists_of_bind h
  cases h
  cases hnew
  have hpacked : g₁.arena.Packed := by rwa [arena_of_evaluate hv]
  have hcontains : (g₁.arena.insert { value := v }).2.contains (g₁.arena.insert { value := v }).1 :=
    Arena.contains_iff.mpr ⟨_, by rw [hpacked.node?_insert, if_pos rfl]⟩
  exact children?_attach hcontains hattach

theorem Finds.assignFormula {x : Option (Value K)} (h : Finds a g x) (hn : g.arena.contains n) :
    Option.Rel (fun v r => r.2.value? = Function.update g.value? n (some v))
      x ((assignFormula n a : GraphM K D (List NodeId)) g) := by
  obtain ⟨vs, hrun⟩ := h
  rw [Graph.assignFormula, run_bind, hrun]
  cases x with
  | none => exact .none
  | some v =>
    obtain ⟨displaced, hattach⟩ := attach_run n a v (g.remembering vs).countAssignment
    rw [Option.map_some, Option.bind_some, run_bind, run_modify, Option.bind_some, hattach]
    refine .some ?_
    obtain ⟨x, hx⟩ := Arena.contains_iff.mp hn
    have harena : (g.remembering vs).countAssignment.arena = g.arena := rfl
    funext m
    simp only [value?, Arena.content?, harena]
    rw [Arena.node?_modify]
    by_cases hm : m = n
    · subst hm
      simp [hx, Node.attach]
    · simp [hm, value?, Arena.content?]

variable [One K]

def evaluateStep (φ : NodeId → Option (Formula K)) (ρ : NodeId → Option (Value K))
    (n : NodeId) : Option (NodeId → Option (Value K)) :=
  match φ n with
  | none => some ρ
  | some a => (a.expression.valueUnder ρ).map fun v => Function.update ρ n (some v)

def Revalues {α : Type} (g : Graph K D) (ρ : NodeId → Option (Value K)) (r : α × Graph K D) :
    Prop := OnlyValues g r.2 ∧ r.2.value? = ρ

theorem evaluate_forget (hβ : a.expression.NamedBy β) (hf : g.Forgot a) {α : Type}
    (f : Value K → GraphM K D α) :
    (a.expression.evaluate >>= fun v => modify (Graph.forget a) >>= fun _ => f v) g =
      (a.expression.valueUnder g.value?).bind fun v => f v g := by
  obtain ⟨vs, hvs, hrun⟩ := Expression.evaluate_run hβ (hf.recallsValues (β := β))
  have hforget : (g.remembering vs).forget a = g := by
    have hvalues := filter_forgotten (fun p hp => (hvs p hp).1) hf.1
    have htangents : g.tangents.filter (fun p => !a.labels.contains p.1) = g.tangents :=
      filter_forgotten (a := a) (List.forall_mem_nil _) hf.2
    rw [Graph.forget, remembering]
    simp only [hvalues, htangents]
  rw [run_bind, hrun, Option.bind_map]
  congr 1
  funext v
  rw [Function.comp_apply, run_bind, run_modify, Option.bind_some, hforget]

theorem evaluateOnce_run (hβ : a.expression.NamedBy β) (hf : g.Forgot a) :
    (evaluateOnce a : GraphM K D (Value K)) g =
      (a.expression.valueUnder g.value?).map (·, g) := by
  rw [evaluateOnce, evaluate_forget hβ hf, Option.map_eq_bind]
  rfl

theorem evaluateNode_run (h : g.Visitable β n) :
    Option.Rel (Revalues g) (evaluateStep g.formula? g.value? n)
      ((evaluateNode n : GraphM K D Unit) g) := by
  obtain ⟨c, hc, hformula, -⟩ := h.cell_eq
  rw [evaluateNode, run_bind, run_cell, hc, Option.map_some, Option.bind_some, evaluateStep,
    hformula]
  cases ha : c.formula with
  | none => exact .some ⟨.refl g, rfl⟩
  | some a =>
    have ha' := hformula.trans ha
    simp only
    rw [evaluate_forget (h.named a ha') (h.forgot a ha'), Option.map_eq_bind]
    refine rel_bind_same _ fun v _ =>
      .some ⟨⟨frame_setValue g n v, rfl, rfl, rfl, rfl, rfl, rfl⟩, ?_⟩
    exact value?_setValue h.live v

theorem evaluateNodes_run {ns : List NodeId} (h : ∀ n ∈ ns, g.Visitable β n) :
    Option.Rel (Revalues g) (ns.foldlM (evaluateStep g.formula?) g.value?)
      (ns.forM (evaluateNode : NodeId → GraphM K D Unit) g) := by
  induction ns generalizing g with
  | nil => exact .some ⟨.refl g, rfl⟩
  | cons n ns ih =>
    change Option.Rel _ _ ((evaluateNode n >>= fun _ => ns.forM evaluateNode : GraphM K D Unit) g)
    rw [List.foldlM_cons, run_bind]
    apply rel_bind (evaluateNode_run (h n (List.mem_cons_self ..)))
    rintro _ ⟨_, g₁⟩ ⟨h₁ : OnlyValues g g₁, rfl⟩
    have hrest := ih fun m hm => (h m (List.mem_cons_of_mem n hm)).congrValues h₁
    rw [formula?_of_frame h₁.frame] at hrest
    exact rel_imp hrest fun _ _ _ hr => ⟨h₁.trans hr.1, hr.2⟩

theorem finds_plain (hβ : a.expression.NamedBy β) (hf : g.Forgot a) :
    Finds a g (a.expression.valueUnder g.value?) := by
  obtain ⟨vs, -, hrun⟩ := Expression.evaluate_run hβ (hf.recallsValues (β := β))
  exact ⟨vs, hrun⟩

end Evaluation

theorem value?_release {held : List NodeId} {n : NodeId} (hn : n ∈ held) (pending : List NodeId)
    (g : Graph K D) : (g.release held pending).value? n = g.value? n := by
  refine release_induction (P := fun g' => g'.value? n = g.value? n) rfl ?_ (fun _ h => h) pending
  intro g' m h hheld _
  have hne : n ≠ m := fun heq => hheld (heq ▸ hn)
  rw [← h, value?, removeNode, Arena.content?, Arena.node?_remove, if_neg hne]
  rfl

end Graph

end GradientGraph
