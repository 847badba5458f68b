import GradientGraph.Proofs.Graph.Touch

/-!
# Renaming stamps

A stamp tells no more than whether two derivatives are the same one. Graphs that hold the
same at some nodes, up to the names of their stamps, are taken by one computation that
reads and writes at these nodes only to graphs that do so again. Each of them stays as it
was everywhere else.
-/

set_option autoImplicit false

namespace GradientGraph

open GradientGraph.Graph

section Renaming

variable {K D : Type}

def Stamped.rename (f : Nat → Nat) (d : Stamped D) : Stamped D := { d with stamp := f d.stamp }

def Cell.rename (f : Nat → Nat) (c : Cell K D) : Cell K D :=
  { c with derivative := c.derivative.map (·.rename f) }

section Laws

variable {f k : Nat → Nat}

theorem Stamped.rename_congr {d : Stamped D} (h : f d.stamp = k d.stamp) :
    d.rename f = d.rename k := by
  rw [rename, h, rename]

theorem Stamped.rename_rename (f k : Nat → Nat) (d : Stamped D) :
    (d.rename f).rename k = d.rename (k ∘ f) := rfl

theorem Cell.rename_congr {c : Cell K D} (h : ∀ i ∈ stampsOf c.derivative, f i = k i) :
    c.rename f = c.rename k := by
  cases hc : c.derivative with
  | none => rw [rename, rename, hc, Option.map_none, Option.map_none]
  | some d =>
    rw [rename, rename, hc, Option.map_some, Option.map_some,
      Stamped.rename_congr (h d.stamp ⟨d, hc, rfl⟩)]

theorem Cell.rename_rename (f k : Nat → Nat) (c : Cell K D) :
    (c.rename f).rename k = c.rename (k ∘ f) := by
  simp only [rename, Option.map_map]
  rfl

theorem Cell.rename_id (c : Cell K D) : c.rename id = c := by
  rw [rename]
  exact congrArg (fun d => ({ c with derivative := d } : Cell K D)) (Option.map_id' ..)

theorem Cell.rename_eq {c : Cell K D} (h : ∀ i ∈ stampsOf c.derivative, f i = i) :
    c.rename f = c := (rename_congr h).trans c.rename_id

end Laws

namespace Graph

/-- The graph with other stamps in its variables and in what it remembers. -/
def rename (f : Nat → Nat) (g : Graph K D) : Graph K D where
  arena := g.arena.mapContent (·.rename f)
  values := g.values
  tangents := g.tangents.map fun x => (x.1, x.2.map (·.rename f))
  nextLabel := g.nextLabel
  nextStamp := g.nextStamp
  assigned := g.assigned
  access := g.access

/-- Whether the second graph holds at the nodes of `T` what the first one does, and remembers
the same, with stamps renamed by `f`. New stamps have names that follow each other as well. -/
structure Resembles (f : Nat → Nat) (T : Set NodeId) (g h : Graph K D) : Prop where
  content : ∀ n ∈ T, h.arena.content? n = (g.arena.content? n).map (·.rename f)
  values : h.values = g.values
  tangents : h.tangents = g.tangents.map fun x => (x.1, x.2.map (·.rename f))
  stamp : ∀ i, f (g.nextStamp + i) = h.nextStamp + i

structure Within (T : Set NodeId) (g g' : Graph K D) : Prop where
  skeleton : g'.skeleton = g.skeleton
  others : ∀ n ∉ T, g'.arena.content? n = g.arena.content? n
  label : g'.nextLabel = g.nextLabel
  assigned : g'.assigned = g.assigned
  access : g'.access = g.access
  stamp : g.nextStamp ≤ g'.nextStamp

def Reads (I T : Set NodeId) (g : Graph K D) : Prop :=
  ∀ n ∈ I, ∀ a, g.formula? n = some a → ∀ c ∈ a.expression.reads, c ∈ T

structure Together (f : Nat → Nat) (T : Set NodeId) (g h g' h' : Graph K D) : Prop where
  resembles : g'.Resembles f T h'
  left : g.Within T g'
  right : h.Within T h'

variable {f : Nat → Nat} {I T : Set NodeId} {g g' g'' h h' h'' : Graph K D} {n : NodeId}

theorem within_memory {next : Nat} (h : g.nextStamp ≤ next) (values : List (Label × Value K))
    (tangents : List (Label × Option (Stamped D))) :
    g.Within T { g with values, tangents, nextStamp := next } :=
  ⟨rfl, fun _ _ => rfl, rfl, rfl, rfl, h⟩

theorem Within.refl (T : Set NodeId) (g : Graph K D) : g.Within T g :=
  within_memory (Nat.le_refl _) g.values g.tangents

theorem Within.trans (h : g.Within T g') (h' : g'.Within T g'') : g.Within T g'' where
  skeleton := h'.skeleton.trans h.skeleton
  others := fun n hn => (h'.others n hn).trans (h.others n hn)
  label := h'.label.trans h.label
  assigned := h'.assigned.trans h.assigned
  access := h'.access.trans h.access
  stamp := Nat.le_trans h.stamp h'.stamp

theorem Within.derivative? (h : g.Within T g') (hn : n ∉ T) :
    g'.derivative? n = g.derivative? n := by
  rw [Graph.derivative?, h.others n hn]
  rfl

theorem Reads.congr (h : g.Reads I T) (hskeleton : g'.skeleton = g.skeleton) : g'.Reads I T := by
  intro n hn a ha
  rw [formula?_of_skeleton hskeleton] at ha
  exact h n hn a ha

theorem rename_id (g : Graph K D) : g.rename id = g := by
  have hcell : (fun c : Cell K D => c.rename id) = id := funext Cell.rename_id
  have htangent : (fun x : Label × Option (Stamped D) => (x.1, x.2.map (·.rename id))) = id := by
    funext x
    exact congrArg (Prod.mk x.1) (Option.map_id' ..)
  refine ext_fields ?_ rfl ?_ rfl rfl rfl rfl
  · rw [Graph.rename, hcell]
    simp [Arena.mapContent]
  · rw [Graph.rename, htangent, List.map_id]

theorem Resembles.refl (g : Graph K D) (T : Set NodeId) : g.Resembles id T g where
  content := fun n _ => by
    conv_lhs => rw [← g.rename_id, Graph.rename, Arena.content?_mapContent]
  values := rfl
  tangents := (congrArg Graph.tangents g.rename_id).symm
  stamp := fun _ => rfl

theorem Together.refl (hg : g.Resembles f T h) : Together f T g h g h :=
  ⟨hg, .refl T g, .refl T h⟩

theorem Together.trans (ht : Together f T g h g' h') (ht' : Together f T g' h' g'' h'') :
    Together f T g h g'' h'' :=
  ⟨ht'.resembles, ht.left.trans ht'.left, ht.right.trans ht'.right⟩

namespace Resembles

variable (hg : g.Resembles f T h) (hn : n ∈ T)
include hg hn

theorem value? : h.value? n = g.value? n := by
  rw [Graph.value?, hg.content n hn, Option.map_map]
  rfl

theorem derivative? : h.derivative? n = (g.derivative? n).map (·.rename f) := by
  rw [Graph.derivative?, hg.content n hn, Option.bind_map, Graph.derivative?, Option.map_bind]
  rfl

theorem differential? : h.differential? n = g.differential? n := by
  rw [Graph.differential?, hg.derivative? hn, Option.map_map]
  rfl

theorem sizeAt : h.sizeAt n = g.sizeAt n := by
  rw [Graph.sizeAt, hg.value? hn]
  rfl

omit hn in
theorem rememberedTangent? (label : Label) : h.rememberedTangent? label =
    (g.rememberedTangent? label).map fun t => t.map (·.rename f) := by
  rw [Graph.rememberedTangent?, Graph.rememberedTangent?, hg.tangents]
  generalize g.tangents = ts
  induction ts with
  | nil => rfl
  | cons t ts ih =>
    rw [List.map_cons, List.lookup_cons, List.lookup_cons]
    cases label == t.1 with
    | true => rfl
    | false => exact ih

theorem updateCell {u v : Cell K D → Cell K D} (huv : ∀ c, v (c.rename f) = (u c).rename f)
    (hu : ∀ c, (u c).formula = c.formula) (hv : ∀ c, (v c).formula = c.formula) :
    Together f T g h (g.updateCell n u) (h.updateCell n v) where
  resembles := by
    refine ⟨fun m hm => ?_, hg.values, hg.tangents, hg.stamp⟩
    rw [content?_updateCell, content?_updateCell, hg.content m hm]
    split
    · rw [Option.map_map, Option.map_map]
      exact congrArg (fun k => Option.map k (g.arena.content? m)) (funext huv)
    · rfl
  left := by
    refine ⟨skeleton_updateCell hu g n, fun m hm => ?_, rfl, rfl, rfl, Nat.le_refl _⟩
    have hne : m ≠ n := fun heq => hm (heq ▸ hn)
    rw [content?_updateCell, if_neg hne]
  right := by
    refine ⟨skeleton_updateCell hv h n, fun m hm => ?_, rfl, rfl, rfl, Nat.le_refl _⟩
    have hne : m ≠ n := fun heq => hm (heq ▸ hn)
    rw [content?_updateCell, if_neg hne]

end Resembles

theorem Resembles.setValue (hg : g.Resembles f T h) (hn : n ∈ T) (v : Value K) :
    Together f T g h (g.setValue n v) (h.setValue n v) :=
  hg.updateCell hn (fun _ => rfl) (fun _ => rfl) fun _ => rfl

theorem Resembles.setDerivative (hg : g.Resembles f T h) (hn : n ∈ T)
    (d : Option (Stamped D)) :
    Together f T g h (g.setDerivative n d) (h.setDerivative n (d.map (·.rename f))) :=
  hg.updateCell hn (fun _ => rfl) (fun _ => rfl) fun _ => rfl

end Graph

end Renaming

section Rules

variable {K D α β : Type} {f : Nat → Nat} {I T : Set NodeId} {R : α → α → Prop}
  {S : β → β → Prop} {n : NodeId}

/-- Whether two computations, begun on graphs that resemble each other at `T`, both fail or
have results related by `R`, and leave such graphs again and the rest as it was. They are
told that the formulas of the nodes of `I` read nodes of `T` only. -/
def Follows (f : Nat → Nat) (I T : Set NodeId) (R : α → α → Prop) (m m' : GraphM K D α) : Prop :=
  ∀ g h : Graph K D, g.Reads I T → g.Resembles f T h →
    Option.Rel (fun r r' => R r.1 r'.1 ∧ Together f T g h r.2 r'.2) (m g) (m' h)

theorem follows_pure {x y : α} (h : R x y) :
    Follows f I T R (pure x : GraphM K D α) (pure y) :=
  fun _ _ _ hg => .some ⟨h, .refl hg⟩

theorem Follows.bind {m m' : GraphM K D α} {k k' : α → GraphM K D β}
    (hm : Follows f I T R m m') (hk : ∀ x y, R x y → Follows f I T S (k x) (k' y)) :
    Follows f I T S (m >>= k) (m' >>= k') := by
  intro g h hreads hg
  rw [run_bind, run_bind]
  refine rel_bind (hm g h hreads hg) ?_
  rintro ⟨x, g₁⟩ ⟨y, h₁⟩ ⟨hxy, ht⟩
  refine rel_imp (hk x y hxy g₁ h₁ (hreads.congr ht.left.skeleton) ht.resembles) ?_
  exact fun r r' _ hr => ⟨hr.1, ht.trans hr.2⟩

theorem Follows.next {m m' : GraphM K D α} {k k' : α → GraphM K D β}
    (hm : Follows f I T Eq m m') (hk : ∀ x, Follows f I T S (k x) (k' x)) :
    Follows f I T S (m >>= k) (m' >>= k') := by
  refine hm.bind ?_
  rintro x _ rfl
  exact hk x

theorem follows_get {k k' : Graph K D → GraphM K D α}
    (h : ∀ g g' : Graph K D, g.Resembles f T g' → Follows f I T R (k g) (k' g')) :
    Follows f I T R (get >>= k) (get >>= k') :=
  fun g g' hreads hg => h g g' hg g g' hreads hg

theorem follows_ofOption (x : Option α) :
    Follows f I T Eq (ofOption x : GraphM K D α) (ofOption x) := by
  cases x with
  | none => exact fun _ _ _ _ => .none
  | some x => exact follows_pure rfl

theorem follows_modify {u v : Graph K D → Graph K D}
    (h : ∀ g g' : Graph K D, g.Resembles f T g' → Together f T g g' (u g) (v g')) :
    Follows f I T Eq (modify u : GraphM K D Unit) (modify v) :=
  fun g g' _ hg => .some ⟨rfl, h g g' hg⟩

theorem follows_ite {m m' k k' : GraphM K D α} {c : Prop} [Decidable c]
    (hm : Follows f I T R m m') (hk : Follows f I T R k k') :
    Follows f I T R (if c then m else k) (if c then m' else k') := by
  split
  · exact hm
  · exact hk

theorem follows_forM {k k' : α → GraphM K D Unit} {xs : List α}
    (h : ∀ x ∈ xs, Follows f I T Eq (k x) (k' x)) :
    Follows f I T Eq (xs.forM k) (xs.forM k') := by
  induction xs with
  | nil => exact follows_pure rfl
  | cons x xs ih =>
    exact (h x (List.mem_cons_self ..)).next fun _ =>
      ih fun y hy => h y (List.mem_cons_of_mem x hy)

theorem follows_stamp (d : D) :
    Follows f I T (fun x y => y = x.rename f) (stamp d : GraphM K D (Stamped D)) (stamp d) := by
  intro g h _ hg
  have hnew : (⟨h.nextStamp, d⟩ : Stamped D) = Stamped.rename f ⟨g.nextStamp, d⟩ :=
    congrArg (Stamped.mk · d) (hg.stamp 0).symm
  refine .some ⟨hnew, ⟨hg.content, hg.values, hg.tangents, fun i => ?_⟩,
    within_memory (Nat.le_succ _) .., within_memory (Nat.le_succ _) ..⟩
  have hi := hg.stamp (1 + i)
  rwa [← Nat.add_assoc, ← Nat.add_assoc] at hi

theorem follows_cell (hn : n ∈ T) :
    Follows f I T (fun c c' => c' = c.rename f ∧
        (n ∈ I → ∀ a, c.formula = some a → ∀ m ∈ a.expression.reads, m ∈ T))
      (cell n : GraphM K D (Cell K D)) (cell n) := by
  intro g h hreads hg
  rw [run_cell, run_cell, hg.content n hn]
  cases hc : g.arena.content? n with
  | none => exact .none
  | some c =>
    refine .some ⟨⟨rfl, fun hI a ha => hreads n hI a ?_⟩, .refl hg⟩
    rw [formula?, hc, Option.bind_some, ha]

theorem follows_forget (a : Formula K) :
    Follows f I T Eq (modify (Graph.forget a) : GraphM K D Unit) (modify (Graph.forget a)) := by
  refine follows_modify fun g h hg => ⟨⟨hg.content, ?_, ?_, hg.stamp⟩,
    within_memory (Nat.le_refl _) .., within_memory (Nat.le_refl _) ..⟩
  · rw [Graph.forget, hg.values]
    rfl
  · rw [Graph.forget, hg.tangents]
    exact List.filter_map ..

theorem follows_remember (label : Label) (v : Value K) :
    Follows f I T Eq (modify (remember label v) : GraphM K D Unit) (modify (remember label v)) := by
  refine follows_modify fun g h hg => ⟨⟨hg.content, ?_, hg.tangents, hg.stamp⟩,
    within_memory (Nat.le_refl _) .., within_memory (Nat.le_refl _) ..⟩
  rw [remember, hg.values]
  rfl

theorem follows_rememberTangent (label : Label) (t : Option (Stamped D)) :
    Follows f I T Eq (modify (rememberTangent label t) : GraphM K D Unit)
      (modify (rememberTangent label (t.map (·.rename f)))) := by
  refine follows_modify fun g h hg => ⟨⟨hg.content, hg.values, ?_, hg.stamp⟩,
    within_memory (Nat.le_refl _) .., within_memory (Nat.le_refl _) ..⟩
  rw [rememberTangent, hg.tangents]
  rfl

theorem follows_setDerivative (hn : n ∈ T) {d e : Option (Stamped D)}
    (hd : e = d.map (·.rename f)) :
    Follows f I T Eq (modify (setDerivative n d) : GraphM K D Unit)
      (modify (setDerivative n e)) := by
  subst hd
  exact follows_modify fun g h hg => hg.setDerivative hn d

theorem follows_stamped (d : Option D) :
    Follows f I T (fun t t' => t' = t.map (·.rename f))
      (do return some (← stamp (← ofOption d)) : GraphM K D (Option (Stamped D)))
      (do return some (← stamp (← ofOption d))) := by
  refine (follows_ofOption d).next fun d => (follows_stamp d).bind ?_
  rintro t _ rfl
  exact follows_pure rfl

theorem follows_giveDerivative (hn : n ∈ T) (d : D) :
    Follows f I T Eq (giveDerivative n d : GraphM K D Unit) (giveDerivative n d) := by
  refine (follows_stamp d).bind ?_
  rintro t _ rfl
  exact follows_setDerivative hn rfl

theorem follows_giveComputed (hn : n ∈ T) (d : Option D) :
    Follows f I T Eq (do giveDerivative n (← ofOption d) : GraphM K D Unit)
      (do giveDerivative n (← ofOption d)) :=
  (follows_ofOption d).next fun d => follows_giveDerivative hn d

theorem follows_clearDerivative (hn : n ∈ T) :
    Follows f I T Eq (clearDerivative n : GraphM K D Unit) (clearDerivative n) :=
  follows_setDerivative hn rfl

variable [Differential K D]

theorem follows_accumulate (hn : n ∈ T) (d : D) :
    Follows f I T Eq (accumulate n d : GraphM K D Unit) (accumulate n d) := by
  refine (follows_cell hn).bind ?_
  rintro c _ ⟨rfl, -⟩
  cases hc : c.derivative with
  | none =>
    simp only [Cell.rename, hc]
    exact follows_giveDerivative hn d
  | some old =>
    simp only [Cell.rename, hc]
    exact (follows_ofOption _).next fun d => follows_giveDerivative hn d

theorem follows_fillDerivative (hn : n ∈ T) (r c : Nat) :
    Follows f I T Eq (fillDerivative n r c : GraphM K D Unit) (fillDerivative n r c) := by
  refine follows_get fun g h hg => ?_
  rw [hg.derivative? hn]
  cases g.derivative? n with
  | none => exact follows_giveComputed hn _
  | some d => exact follows_pure rfl

theorem follows_carry [Zero K] [Calculus K]
    (k : BinaryKernel) (x y : Value K) (s t : Option (Stamped D)) :
    Follows f I T (fun t t' => t' = t.map (·.rename f))
      (k.carry x y s t : GraphM K D (Option (Stamped D)))
      (k.carry x y (s.map (·.rename f)) (t.map (·.rename f))) := by
  -- a kernel is not told the stamps
  have hvalue (t : Option (Stamped D)) :
      (t.map (·.rename f)).map (·.value) = t.map (·.value) := by cases t <;> rfl
  rw [BinaryKernel.carry, BinaryKernel.carry, hvalue, hvalue]
  refine (follows_ofOption _).next fun d => ?_
  cases d with
  | none => exact follows_pure rfl
  | some d => exact follows_stamped (some d)

end Rules

section Traversals

variable {K D : Type} [Zero K] [Add K] [Mul K] [MulAdd K] [Capacity K] [NatCast K] [Calculus K]
  {f : Nat → Nat} {I T : Set NodeId} {n : NodeId}

theorem follows_evaluate {e : Expression K} (he : ∀ m ∈ e.reads, m ∈ T) :
    Follows f I T Eq (e.evaluate : GraphM K D (Value K)) e.evaluate := by
  induction e with
  | literal v => exact follows_pure rfl
  | read label m =>
    refine (follows_cell (he m (List.mem_singleton.mpr rfl))).bind ?_
    rintro c _ ⟨rfl, -⟩
    exact follows_pure rfl
  | unary k a ih => exact (ih he).next fun _ => follows_pure rfl
  | binary k l r ihl ihr =>
    exact (ihl fun m hm => he m (List.mem_append_left _ hm)).next fun _ =>
      (ihr fun m hm => he m (List.mem_append_right _ hm)).next fun _ => follows_ofOption _
  | shared label e ih =>
    refine follows_get fun g h hg => ?_
    rw [remembered?, remembered?, hg.values]
    cases g.values.lookup label with
    | some v => exact follows_pure rfl
    | none => exact (ih he).next fun v => (follows_remember label v).next fun _ => follows_pure rfl

theorem follows_evaluateNode (hn : n ∈ T) (hI : n ∈ I) :
    Follows f I T Eq (evaluateNode n : GraphM K D Unit) (evaluateNode n) := by
  refine (follows_cell hn).bind ?_
  rintro c _ ⟨rfl, hreads⟩
  cases ha : c.formula with
  | none =>
    simp only [Cell.rename, ha]
    exact follows_pure rfl
  | some a =>
    simp only [Cell.rename, ha]
    exact (follows_evaluate (hreads hI a ha)).next fun v => (follows_forget a).next fun _ =>
      follows_modify fun g h hg => hg.setValue hn v

variable [One K] [Differential K D]

theorem follows_pushForward {e : Expression K} (he : ∀ m ∈ e.reads, m ∈ T) :
    Follows f I T (fun t t' => t' = t.map (·.rename f))
      (e.pushForward : GraphM K D (Option (Stamped D))) e.pushForward := by
  induction e with
  | literal v => exact follows_pure rfl
  | read label m =>
    refine (follows_cell (he m (List.mem_singleton.mpr rfl))).bind ?_
    rintro c _ ⟨rfl, -⟩
    exact follows_pure rfl
  | unary k a ih =>
    refine (ih he).bind ?_
    rintro t _ rfl
    cases t with
    | none => exact follows_pure rfl
    | some t => exact (follows_evaluate (e := a) he).next fun _ => follows_stamped _
  | binary k l r ihl ihr =>
    have hl : ∀ m ∈ l.reads, m ∈ T := fun m hm => he m (List.mem_append_left _ hm)
    have hr : ∀ m ∈ r.reads, m ∈ T := fun m hm => he m (List.mem_append_right _ hm)
    have hnone (t : Option (Stamped D)) : (t.map (·.rename f)).isNone = t.isNone := by
      cases t <;> rfl
    rw [Expression.pushForward_binary]
    refine (ihl hl).bind ?_
    rintro s _ rfl
    refine (ihr hr).bind ?_
    rintro t _ rfl
    rw [hnone, hnone]
    refine follows_ite (follows_pure rfl) ?_
    exact (follows_evaluate hl).next fun _ => (follows_evaluate hr).next fun _ =>
      follows_carry k _ _ s t
  | shared label e ih =>
    refine follows_get fun g h hg => ?_
    rw [hg.rememberedTangent?]
    cases g.rememberedTangent? label with
    | some t => exact follows_pure rfl
    | none =>
      refine (ih he).bind ?_
      rintro t _ rfl
      exact (follows_rememberTangent label t).next fun _ => follows_pure rfl

theorem follows_pushForwardNode (hn : n ∈ T) (hI : n ∈ I) :
    Follows f I T Eq (pushForwardNode n : GraphM K D Unit) (pushForwardNode n) := by
  refine (follows_cell hn).bind ?_
  rintro c _ ⟨rfl, hreads⟩
  cases ha : c.formula with
  | none =>
    simp only [Cell.rename, ha]
    exact follows_pure rfl
  | some a =>
    simp only [Cell.rename, ha]
    refine (follows_pushForward (hreads hI a ha)).bind ?_
    rintro t _ rfl
    exact (follows_forget a).next fun _ => follows_setDerivative hn rfl

theorem follows_pullSide {e : Expression K}
    (h : ∀ d : D, Follows f I T Eq (e.pullBack d : GraphM K D Unit) (e.pullBack d))
    (j : Option (Jacobian K)) (d : D) :
    Follows f I T Eq (e.pullSide j d : GraphM K D Unit) (e.pullSide j d) :=
  follows_ite (follows_pure rfl) <| (follows_ofOption _).next fun _ => (follows_ofOption _).next h

theorem follows_pullBack {e : Expression K} (he : ∀ m ∈ e.reads, m ∈ T) (d : D) :
    Follows f I T Eq (e.pullBack d : GraphM K D Unit) (e.pullBack d) := by
  induction e generalizing d with
  | literal v => exact follows_pure rfl
  | read label m => exact follows_accumulate (he m (List.mem_singleton.mpr rfl)) d
  | unary k a ih =>
    rw [Expression.pullBack_unary]
    refine follows_ite (follows_pure rfl) ?_
    exact (follows_evaluate (e := a) he).next fun _ => follows_pullSide (ih he) _ d
  | binary k l r ihl ihr =>
    have hl : ∀ m ∈ l.reads, m ∈ T := fun m hm => he m (List.mem_append_left _ hm)
    have hr : ∀ m ∈ r.reads, m ∈ T := fun m hm => he m (List.mem_append_right _ hm)
    rw [Expression.pullBack_binary]
    refine follows_ite (follows_pure rfl) ?_
    refine (follows_evaluate hl).next fun x => (follows_evaluate hr).next fun y => ?_
    exact (follows_pullSide (ihl hl) _ d).next fun _ => follows_pullSide (ihr hr) _ d
  | shared label e ih => exact ih he d

theorem follows_pullBackNode (hn : n ∈ T) (hI : n ∈ I) :
    Follows f I T Eq (pullBackNode n : GraphM K D Unit) (pullBackNode n) := by
  refine (follows_cell hn).bind ?_
  rintro c _ ⟨rfl, hreads⟩
  cases ha : c.formula with
  | none =>
    simp only [Cell.rename, ha]
    exact follows_pure rfl
  | some a =>
    cases hd : c.derivative with
    | none =>
      simp only [Cell.rename, ha, hd]
      exact follows_pure rfl
    | some d =>
      simp only [Cell.rename, ha, hd]
      exact (follows_pullBack (hreads hI a ha) d.value).next fun _ => follows_forget a

end Traversals

end GradientGraph
