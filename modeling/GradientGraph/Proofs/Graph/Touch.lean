import GradientGraph.Proofs.Program.Valuation

/-!
# What a computation touches

Evaluation, the traversals and all passes leave the formulas and the edges as they are.
They touch the derivatives of some nodes, and give every derivative that they compute a
stamp that was not given out before. A pass is described by the nodes whose derivatives
it may touch and by the stamps of what it returns.
-/

set_option autoImplicit false

namespace GradientGraph

open GradientGraph.Graph

def stampsOf {D : Type} (d : Option (Stamped D)) : Set Nat := {s | ∃ x, d = some x ∧ x.stamp = s}

namespace Graph

variable {K D : Type}

def stamps (g : Graph K D) : Set Nat :=
  {s | (∃ n, s ∈ stampsOf (g.derivative? n)) ∨ ∃ x ∈ g.tangents, s ∈ stampsOf x.2}

structure Dated (S : Set Nat) (g : Graph K D) : Prop where
  own : ∀ s ∈ g.stamps, s < g.nextStamp
  known : ∀ s ∈ S, s < g.nextStamp

structure Touches (T : Set NodeId) (g g' : Graph K D) : Prop where
  skeleton : g'.skeleton = g.skeleton
  access : g'.access = g.access
  derivatives : ∀ n ∉ T, g'.derivative? n = g.derivative? n
  stamp : g.nextStamp ≤ g'.nextStamp

variable {S S' : Set Nat} {T : Set NodeId} {g g' g'' : Graph K D}

theorem Dated.mono (h : g.Dated S) (hS : S' ⊆ S) : g.Dated S' :=
  ⟨h.own, fun s hs => h.known s (hS hs)⟩

theorem Dated.union (h : g.Dated S) (h' : g.Dated S') : g.Dated (S ∪ S') :=
  ⟨h.own, fun s hs => hs.elim (h.known s) (h'.known s)⟩

theorem Dated.all (h : g.Dated S) : g.Dated (g.stamps ∪ S) := .union ⟨h.own, h.own⟩ h

theorem dated_empty : ({} : Graph K D).Dated ∅ where
  own := by
    rintro s (⟨n, d, hd, -⟩ | ⟨x, hx, -⟩)
    · cases hd
    · cases hx
  known := by simp

theorem Dated.of_stamps (h : g.Dated S) (hs : g'.stamps ⊆ g.stamps ∪ S)
    (hnext : g.nextStamp ≤ g'.nextStamp) : g'.Dated S where
  own := fun s hmem => Nat.lt_of_lt_of_le (h.all.known s (hs hmem)) hnext
  known := fun s hmem => Nat.lt_of_lt_of_le (h.known s hmem) hnext

theorem contains_of_skeleton (h : g'.skeleton = g.skeleton) {n : NodeId}
    (hn : g.arena.contains n) : g'.arena.contains n := by
  obtain ⟨x, hx⟩ := Arena.contains_iff.mp hn
  obtain ⟨y, hy, -⟩ := node?_of_skeleton h hx
  exact Arena.contains_iff.mpr ⟨y, hy⟩

theorem Touches.refl (T : Set NodeId) (g : Graph K D) : g.Touches T g :=
  ⟨rfl, rfl, fun _ _ => rfl, Nat.le_refl _⟩

theorem Touches.mono {T' : Set NodeId} (h : g.Touches T g') (hT : T ⊆ T') : g.Touches T' g' :=
  ⟨h.skeleton, h.access, fun n hn => h.derivatives n fun hmem => hn (hT hmem), h.stamp⟩

theorem Touches.trans (h : g.Touches T g') (h' : g'.Touches T g'') : g.Touches T g'' where
  skeleton := h'.skeleton.trans h.skeleton
  access := h'.access.trans h.access
  derivatives := fun n hn => (h'.derivatives n hn).trans (h.derivatives n hn)
  stamp := Nat.le_trans h.stamp h'.stamp

theorem skeleton_updateCell {f : Cell K D → Cell K D} (hf : ∀ c, (f c).formula = c.formula)
    (g : Graph K D) (n : NodeId) : (g.updateCell n f).skeleton = g.skeleton := by
  unfold updateCell skeleton
  apply Arena.mapContent_modify
  intro x
  rw [hf]

theorem derivative?_updateCell {f : Cell K D → Cell K D}
    (hf : ∀ c, (f c).derivative = c.derivative) (g : Graph K D) (n : NodeId) :
    (g.updateCell n f).derivative? = g.derivative? := by
  funext m
  rw [derivative?, content?_updateCell]
  split
  · rw [Option.bind_map]
    exact congrArg (g.arena.content? m).bind (funext hf)
  · rfl

theorem derivative?_setDerivative_ne (g : Graph K D) {n m : NodeId} (hm : m ≠ n)
    (d : Option (Stamped D)) : (g.setDerivative n d).derivative? m = g.derivative? m := by
  rw [derivative?, setDerivative, content?_updateCell, if_neg hm]
  rfl

theorem derivative?_of_setDerivative {n m : NodeId} {d : Option (Stamped D)} {x : Stamped D}
    (h : (g.setDerivative n d).derivative? m = some x) : d = some x ∨ g.derivative? m = some x := by
  by_cases hn : g.arena.contains n
  · rw [derivative?_setDerivative hn] at h
    split at h
    · exact .inl h
    · exact .inr h
  · rw [setDerivative, updateCell, Arena.modify, if_neg hn] at h
    exact .inr h

theorem Touches.updateCell {f : Cell K D → Cell K D} (hformula : ∀ c, (f c).formula = c.formula)
    (hderivative : ∀ c, (f c).derivative = c.derivative) (g : Graph K D) (n : NodeId) :
    g.Touches T (g.updateCell n f) where
  skeleton := skeleton_updateCell hformula g n
  access := rfl
  derivatives := fun m _ => congrFun (derivative?_updateCell hderivative g n) m
  stamp := Nat.le_refl _

theorem Touches.setDerivative {n : NodeId} (hn : n ∈ T) (d : Option (Stamped D))
    (g : Graph K D) : g.Touches T (g.setDerivative n d) where
  skeleton := skeleton_updateCell (f := fun c => { c with derivative := d }) (fun _ => rfl) g n
  access := rfl
  derivatives := by
    intro m hm
    apply derivative?_setDerivative_ne
    rintro rfl
    exact hm hn
  stamp := Nat.le_refl _

theorem Dated.setDerivative (h : g.Dated S) (n : NodeId) {d : Option (Stamped D)}
    (hd : stampsOf d ⊆ S) : (g.setDerivative n d).Dated S := by
  refine h.of_stamps ?_ (Nat.le_refl _)
  rintro s (⟨m, x, hx, rfl⟩ | hx)
  · rcases derivative?_of_setDerivative hx with hx | hx
    · exact .inr (hd ⟨x, hx, rfl⟩)
    · exact .inl (.inl ⟨m, x, hx, rfl⟩)
  · exact .inl (.inr hx)

end Graph

section Rules

variable {K D α β : Type} {S : Set Nat} {T : Set NodeId}

/-- Whether the computation touches no derivative outside `T`, and gives out stamps for
what it computes, those `Q` of its result among them, as long as those in `S` were. -/
def Works (S : Set Nat) (T : Set NodeId) (m : GraphM K D α) (Q : α → Set Nat) : Prop :=
  ∀ (g : Graph K D) (x : α) (g' : Graph K D), g.Dated S → m g = some (x, g') →
    g.Touches T g' ∧ g'.Dated (Q x ∪ S)

abbrev Labours (S : Set Nat) (T : Set NodeId) (m : GraphM K D α) : Prop := Works S T m fun _ => ∅

theorem works_pure {x : α} {Q : α → Set Nat} (hQ : Q x ⊆ S) :
    Works S T (pure x : GraphM K D α) Q := by
  intro g y g' hg h
  cases h
  exact ⟨.refl T g, hg.mono (Set.union_subset hQ (subset_refl S))⟩

theorem Works.bind {m : GraphM K D α} {f : α → GraphM K D β} {Q : α → Set Nat}
    {R : β → Set Nat} (hm : Works S T m Q) (hf : ∀ x, Works (Q x ∪ S) T (f x) R) :
    Works S T (m >>= f) R := by
  intro g y g'' hg h
  obtain ⟨x, g', hx, hy⟩ := exists_of_bind h
  obtain ⟨htouches, hg'⟩ := hm g x g' hg hx
  obtain ⟨htouches', hg''⟩ := hf x g' y g'' hg' hy
  refine ⟨htouches.trans htouches', hg''.mono ?_⟩
  exact Set.union_subset_union_right _ Set.subset_union_right

theorem Works.before {m : GraphM K D α} {f : α → GraphM K D β} {R : β → Set Nat}
    (hm : Labours S T m) (hf : ∀ x, Works S T (f x) R) : Works S T (m >>= f) R :=
  hm.bind fun x => by
    rw [Set.empty_union]
    exact hf x

theorem works_get {f : Graph K D → GraphM K D α} {R : α → Set Nat}
    (hf : ∀ g : Graph K D, Works (g.stamps ∪ S) T (f g) R) : Works S T (get >>= f) R := by
  intro g x g' hg h
  obtain ⟨htouches, hg'⟩ := hf g g x g' hg.all h
  exact ⟨htouches, hg'.mono (Set.union_subset_union_right _ Set.subset_union_right)⟩

theorem works_ofOption (x : Option α) : Labours S T (ofOption x : GraphM K D α) := by
  intro g y g' hg h
  rw [run_ofOption] at h
  obtain ⟨_, -, h⟩ := Option.map_eq_some_iff.mp h
  cases h
  exact ⟨.refl T g, hg.mono (by simp)⟩

theorem works_modify {f : Graph K D → Graph K D}
    (hf : ∀ g : Graph K D, g.Dated S → g.Touches T (f g) ∧ (f g).Dated S) :
    Labours S T (modify f : GraphM K D Unit) := by
  intro g x g' hg h
  cases h
  obtain ⟨htouches, hg'⟩ := hf g hg
  exact ⟨htouches, hg'.mono (by simp)⟩

theorem works_ite {m m' : GraphM K D α} {Q : α → Set Nat} {c : Prop} [Decidable c]
    (hm : Works S T m Q) (hm' : Works S T m' Q) : Works S T (if c then m else m') Q := by
  split
  · exact hm
  · exact hm'

theorem works_forM {f : α → GraphM K D Unit} {xs : List α} (hf : ∀ x ∈ xs, Labours S T (f x)) :
    Labours S T (xs.forM f) := by
  induction xs with
  | nil => exact works_pure (Set.empty_subset S)
  | cons x xs ih =>
    exact (hf x (List.mem_cons_self ..)).before fun _ =>
      ih fun y hy => hf y (List.mem_cons_of_mem x hy)

theorem works_stamp (d : D) :
    Works S T (stamp d : GraphM K D (Stamped D)) fun d => {d.stamp} := by
  intro g x g' hg h
  cases h
  have hown : ∀ s ∈ g.stamps, s < g.nextStamp + 1 := fun s hs => Nat.lt_succ_of_lt (hg.own s hs)
  have hnew : ∀ s ∈ ({g.nextStamp} : Set Nat) ∪ S, s < g.nextStamp + 1 := by
    rintro s (rfl | hs)
    · exact Nat.lt_succ_self _
    · exact Nat.lt_succ_of_lt (hg.known s hs)
  exact ⟨⟨rfl, rfl, fun _ _ => rfl, Nat.le_succ _⟩, hown, hnew⟩

theorem works_freshLabel : Labours S T (freshLabel : GraphM K D Label) := by
  intro g x g' hg h
  cases h
  have hg' : ({ g with nextLabel := g.nextLabel + 1 } : Graph K D).Dated S :=
    hg.of_stamps Set.subset_union_left (Nat.le_refl _)
  exact ⟨⟨rfl, rfl, fun _ _ => rfl, Nat.le_refl _⟩,
    hg'.mono (Set.empty_union S).subset⟩

theorem works_cell (n : NodeId) :
    Works S T (cell n : GraphM K D (Cell K D)) fun c => stampsOf c.derivative := by
  intro g c g' hg h
  rw [run_cell] at h
  obtain ⟨_, hc, h⟩ := Option.map_eq_some_iff.mp h
  cases h
  refine ⟨.refl T g, hg.all.mono (Set.union_subset_union_left S ?_)⟩
  rintro s ⟨d, hd, rfl⟩
  exact .inl ⟨n, d, by rw [derivative?, hc]; exact hd, rfl⟩

theorem works_forget (a : Formula K) : Labours S T (modify (Graph.forget a) : GraphM K D Unit) := by
  apply works_modify
  intro g hg
  refine ⟨⟨rfl, rfl, fun _ _ => rfl, Nat.le_refl _⟩, hg.of_stamps ?_ (Nat.le_refl _)⟩
  rintro s (hs | ⟨x, hx, hs⟩)
  · exact .inl (.inl hs)
  · exact .inl (.inr ⟨x, (List.mem_filter.mp hx).1, hs⟩)

theorem works_remember (label : Label) (v : Value K) :
    Labours S T (modify (remember label v) : GraphM K D Unit) :=
  works_modify fun _ hg => ⟨⟨rfl, rfl, fun _ _ => rfl, Nat.le_refl _⟩,
    hg.of_stamps Set.subset_union_left (Nat.le_refl _)⟩

theorem works_rememberTangent (label : Label) {t : Option (Stamped D)} (ht : stampsOf t ⊆ S) :
    Labours S T (modify (rememberTangent label t) : GraphM K D Unit) := by
  apply works_modify
  intro g hg
  refine ⟨⟨rfl, rfl, fun _ _ => rfl, Nat.le_refl _⟩, hg.of_stamps ?_ (Nat.le_refl _)⟩
  rintro s (hs | ⟨x, hx, hs⟩)
  · exact .inl (.inl hs)
  · rcases List.mem_cons.mp hx with rfl | hx
    · exact .inr (ht hs)
    · exact .inl (.inr ⟨x, hx, hs⟩)

theorem works_setValue (n : NodeId) (v : Value K) :
    Labours S T (modify (setValue n v) : GraphM K D Unit) := by
  apply works_modify
  intro g hg
  have hsame := derivative?_updateCell (f := fun c => { c with value := v }) (fun _ => rfl) g n
  refine ⟨.updateCell (f := fun c => { c with value := v }) (fun _ => rfl) (fun _ => rfl) g n,
    hg.of_stamps ?_ (Nat.le_refl _)⟩
  rintro s (⟨m, hs⟩ | hs)
  · exact .inl (.inl ⟨m, by rwa [← hsame]⟩)
  · exact .inl (.inr hs)

theorem works_setDerivative {n : NodeId} (hn : n ∈ T) {d : Option (Stamped D)}
    (hd : stampsOf d ⊆ S) : Labours S T (modify (setDerivative n d) : GraphM K D Unit) :=
  works_modify fun g hg => ⟨.setDerivative hn d g, hg.setDerivative n hd⟩

theorem stampsOf_some (d : Stamped D) : stampsOf (some d) = {d.stamp} := by
  ext s
  constructor
  · rintro ⟨x, hx, rfl⟩
    cases hx
    rfl
  · rintro rfl
    exact ⟨d, rfl, rfl⟩

theorem stampsOf_none : stampsOf (none : Option (Stamped D)) = ∅ := by
  ext s
  constructor
  · rintro ⟨x, hx, -⟩
    cases hx
  · exact False.elim

theorem works_stamped (d : Option D) :
    Works S T (do return some (← stamp (← ofOption d)) : GraphM K D (Option (Stamped D)))
      stampsOf :=
  (works_ofOption d).before fun d => (works_stamp d).bind fun d =>
    works_pure (by rw [stampsOf_some]; exact Set.subset_union_left)

theorem works_giveDerivative {n : NodeId} (hn : n ∈ T) (d : D) :
    Labours S T (giveDerivative n d : GraphM K D Unit) :=
  (works_stamp d).bind fun d =>
    works_setDerivative hn (by rw [stampsOf_some]; exact Set.subset_union_left)

theorem works_giveComputed {n : NodeId} (hn : n ∈ T) (d : Option D) :
    Labours S T (do giveDerivative n (← ofOption d) : GraphM K D Unit) :=
  (works_ofOption d).before fun d => works_giveDerivative hn d

theorem works_clearDerivative {n : NodeId} (hn : n ∈ T) :
    Labours S T (clearDerivative n : GraphM K D Unit) :=
  works_setDerivative hn (by rw [stampsOf_none]; exact Set.empty_subset S)

theorem works_accumulate [Differential K D] {n : NodeId} (hn : n ∈ T) (d : D) :
    Labours S T (accumulate n d : GraphM K D Unit) := by
  have hset (S : Set Nat) (d : D) : Labours S T (do
      let new ← stamp d
      modify (setDerivative n (some new)) : GraphM K D Unit) := works_giveDerivative hn d
  refine (works_cell n).bind fun c => ?_
  cases c.derivative with
  | none =>
    have hpure {S : Set Nat} : Labours S T (pure d : GraphM K D D) :=
      works_pure (Set.empty_subset S)
    exact hpure.before (hset _)
  | some old => exact (works_ofOption _).before (hset _)

theorem works_fillDerivative [Differential K D] {n : NodeId} (hn : n ∈ T) (r c : Nat) :
    Labours S T (fillDerivative n r c : GraphM K D Unit) := by
  refine works_get fun g => ?_
  cases g.derivative? n with
  | none => exact works_giveComputed hn _
  | some d => exact works_pure (Set.empty_subset _)

theorem works_unmoved : Works S T (pure none : GraphM K D (Option (Stamped D))) stampsOf :=
  works_pure (by rw [stampsOf_none]; exact Set.empty_subset S)

theorem works_carry [Zero K] [Calculus K] [Differential K D]
    (k : BinaryKernel) (x y : Value K) (s t : Option (Stamped D)) :
    Works S T (k.carry x y s t : GraphM K D (Option (Stamped D))) stampsOf := by
  refine (works_ofOption _).before fun d => ?_
  cases d with
  | none => exact works_unmoved
  | some d => exact works_stamped (some d)

end Rules

section Traversals

variable {K D : Type} [Zero K] [Add K] [Mul K] [MulAdd K] [Capacity K] [NatCast K] [Calculus K]
  {S : Set Nat} {T : Set NodeId}

theorem works_evaluate (e : Expression K) : Labours S T (e.evaluate : GraphM K D (Value K)) := by
  have hvalue {S : Set Nat} (v : Value K) : Labours S T (pure v : GraphM K D (Value K)) :=
    works_pure (Set.empty_subset _)
  induction e generalizing S with
  | literal v => exact hvalue v
  | read label n => exact (works_cell n).bind fun c => hvalue c.value
  | unary k a ih => exact ih.before fun _ => hvalue _
  | binary k l r ihl ihr => exact ihl.before fun _ => ihr.before fun _ => works_ofOption _
  | shared label e ih =>
    refine works_get fun g => ?_
    cases g.remembered? label with
    | some v => exact hvalue v
    | none => exact ih.before fun v => (works_remember label v).before fun _ => hvalue v

theorem works_evaluateOnce (a : Formula K) :
    Labours S T (evaluateOnce a : GraphM K D (Value K)) :=
  (works_evaluate _).before fun _ => (works_forget a).before fun _ =>
    works_pure (Set.empty_subset _)

theorem works_evaluateNode (n : NodeId) : Labours S T (evaluateNode n : GraphM K D Unit) := by
  refine (works_cell n).bind fun c => ?_
  cases c.formula with
  | none => exact works_pure (Set.empty_subset _)
  | some a =>
    exact (works_evaluate _).before fun v => (works_forget a).before fun _ => works_setValue n v

variable [One K] [Differential K D]

theorem works_pushForward (e : Expression K) :
    Works S T (e.pushForward : GraphM K D (Option (Stamped D))) stampsOf := by
  induction e generalizing S with
  | literal v => exact works_unmoved
  | read label n => exact (works_cell n).bind fun c => works_pure Set.subset_union_left
  | unary k a ih =>
    refine ih.bind fun t => ?_
    cases t with
    | none => exact works_unmoved
    | some t => exact (works_evaluate a).before fun _ => works_stamped _
  | binary k l r ihl ihr =>
    rw [Expression.pushForward_binary]
    refine ihl.bind fun s => ihr.bind fun t => works_ite works_unmoved ?_
    exact (works_evaluate l).before fun _ => (works_evaluate r).before fun _ =>
      works_carry k _ _ s t
  | shared label e ih =>
    refine works_get fun g => ?_
    cases hlabel : g.rememberedTangent? label with
    | some t =>
      exact works_pure fun s hs => .inl (.inr ⟨(label, t), mem_of_lookup hlabel, hs⟩)
    | none =>
      refine ih.bind fun t => ?_
      exact (works_rememberTangent label Set.subset_union_left).before fun _ =>
        works_pure Set.subset_union_left

theorem works_pushForwardNode {n : NodeId} (hn : n ∈ T) :
    Labours S T (pushForwardNode n : GraphM K D Unit) := by
  refine (works_cell n).bind fun c => ?_
  cases c.formula with
  | none => exact works_pure (Set.empty_subset _)
  | some a =>
    exact (works_pushForward _).bind fun t => (works_forget a).before fun _ =>
      works_setDerivative hn Set.subset_union_left

theorem works_pullSide {e : Expression K}
    (h : ∀ d : D, Labours S T (e.pullBack d : GraphM K D Unit)) (j : Option (Jacobian K)) (d : D) :
    Labours S T (e.pullSide j d : GraphM K D Unit) :=
  works_ite (works_pure (Set.empty_subset _)) <|
    (works_ofOption _).before fun _ => (works_ofOption _).before h

theorem works_pullBack {e : Expression K} (he : ∀ n ∈ e.reads, n ∈ T) (d : D) :
    Labours S T (e.pullBack d : GraphM K D Unit) := by
  induction e generalizing d with
  | literal v => exact works_pure (Set.empty_subset _)
  | read label n => exact works_accumulate (he n (List.mem_singleton.mpr rfl)) d
  | unary k a ih =>
    rw [Expression.pullBack_unary]
    refine works_ite (works_pure (Set.empty_subset _)) ?_
    exact (works_evaluate a).before fun _ => works_pullSide (ih he) _ d
  | binary k l r ihl ihr =>
    have hl : ∀ n ∈ l.reads, n ∈ T := fun n hn => he n (List.mem_append_left _ hn)
    have hr : ∀ n ∈ r.reads, n ∈ T := fun n hn => he n (List.mem_append_right _ hn)
    rw [Expression.pullBack_binary]
    refine works_ite (works_pure (Set.empty_subset _)) ?_
    refine (works_evaluate l).before fun x => (works_evaluate r).before fun y => ?_
    exact (works_pullSide (ihl hl) _ d).before fun _ => works_pullSide (ihr hr) _ d
  | shared label e ih => exact ih he d

theorem works_pullBackNode (n : NodeId) :
    Labours S Set.univ (pullBackNode n : GraphM K D Unit) := by
  refine (works_cell n).bind fun c => ?_
  cases c.formula with
  | none => exact works_pure (Set.empty_subset _)
  | some a =>
    cases c.derivative with
    | none => exact works_pure (Set.empty_subset _)
    | some d =>
      exact (works_pullBack (fun m _ => Set.mem_univ m) d.value).before fun _ => works_forget a

end Traversals

end GradientGraph
