import GradientGraph.Graph.State
import GradientGraph.Proofs.Node.Change
import Mathlib.Logic.Function.Basic

/-!
# Views of a graph

Computations on a graph are functions from graphs to results, and most of them
change little. What a change of one variable leaves alone is read off here,
once for every field. `Graph.statics` is all that a pass over derivatives
leaves alone: the arena with the derivatives taken out.
-/

set_option autoImplicit false

namespace GradientGraph

namespace Arena

variable {α β : Type}

def mapContent (f : α → β) (a : Arena α) : Arena β where
  slots := a.slots.map fun s =>
    { s with node := s.node.map fun x => { x with content := f x.content } }
  vacant := a.vacant
  inserted := a.inserted

theorem node?_mapContent (f : α → β) (a : Arena α) (n : NodeId) :
    (a.mapContent f).node? n = (a.node? n).map fun x => { x with content := f x.content } := by
  unfold node? mapContent
  rw [Array.getElem?_map]
  cases a.slots[n.index]? with
  | none => rfl
  | some s => by_cases h : s.generation = n.generation <;> simp [h]

theorem content?_mapContent (f : α → β) (a : Arena α) (n : NodeId) :
    (a.mapContent f).content? n = (a.content? n).map f := by
  rw [content?, node?_mapContent, content?, Option.map_map, Option.map_map]
  rfl

theorem contains_mapContent (f : α → β) (a : Arena α) (n : NodeId) :
    (a.mapContent f).contains n = a.contains n := by
  rw [contains, node?_mapContent, contains, Option.isSome_map]

theorem mapContent_modify {f : α → β} {g : Node α → Node α}
    (h : ∀ x, ({ g x with content := f (g x).content } : Node β) =
      { x with content := f x.content }) (a : Arena α) (n : NodeId) :
    (a.modify n g).mapContent f = a.mapContent f := by
  unfold modify
  split
  · simp only [mapContent, Arena.mk.injEq, and_true]
    apply Array.ext_getElem?
    intro i
    rw [Array.getElem?_map, Array.getElem?_map, Array.getElem?_modify]
    split
    · cases a.slots[i]? with
      | none => rfl
      | some s => cases hs : s.node <;> simp [hs, h]
    · rfl
  · rfl

/-- What two views together see of every node determines the arena. -/
theorem ext_views {γ : Type} {f : α → β} {h : α → γ}
    (hinj : ∀ x y, f x = f y → h x = h y → x = y) {a b : Arena α}
    (hf : a.mapContent f = b.mapContent f)
    (hh : ∀ n, (a.content? n).map h = (b.content? n).map h) : a = b := by
  obtain ⟨slots, vacant, inserted⟩ := a
  obtain ⟨slots', vacant', inserted'⟩ := b
  simp only [mapContent, Arena.mk.injEq] at hf
  obtain ⟨hslots, rfl, rfl⟩ := hf
  congr 1
  apply Array.ext_getElem?
  intro i
  have hi := congrArg (fun all => all[i]?) hslots
  simp only [Array.getElem?_map] at hi
  cases hs : slots[i]? with
  | none =>
    rw [hs, Option.map_none, eq_comm, Option.map_eq_none_iff] at hi
    exact hi.symm
  | some s =>
    rw [hs, Option.map_some, eq_comm, Option.map_eq_some_iff] at hi
    obtain ⟨t, ht, hst⟩ := hi
    obtain ⟨k, x⟩ := s
    obtain ⟨l, y⟩ := t
    simp only [Slot.mk.injEq] at hst
    obtain ⟨rfl, hxy⟩ := hst
    have hviews : x.map (fun x => h x.content) = y.map fun x => h x.content := by
      simpa [content?, node?, hs, ht, Function.comp_def] using hh ⟨i, l⟩
    cases x with
    | none =>
      obtain rfl := Option.map_eq_none_iff.mp hxy
      exact ht.symm
    | some x =>
      obtain ⟨y, rfl, hnode⟩ := Option.map_eq_some_iff.mp hxy
      obtain ⟨c, children, version⟩ := x
      obtain ⟨d, children', version'⟩ := y
      simp only [Node.mk.injEq] at hnode
      obtain ⟨hcd, rfl, rfl⟩ := hnode
      rw [ht, hinj c d hcd.symm (Option.some.inj hviews)]

end Arena

theorem rel_bind {α β γ δ : Type} {R : α → β → Prop} {S : γ → δ → Prop} {x : Option α}
    {y : Option β} {f : α → Option γ} {g : β → Option δ} (h : Option.Rel R x y)
    (hfg : ∀ a b, R a b → Option.Rel S (f a) (g b)) : Option.Rel S (x.bind f) (y.bind g) := by
  cases h with
  | none => exact .none
  | some hab => exact hfg _ _ hab

theorem rel_map {α β γ δ : Type} {R : α → β → Prop} {S : γ → δ → Prop} {x : Option α}
    {y : Option β} {f : α → γ} {g : β → δ} (h : Option.Rel R x y)
    (hfg : ∀ a b, R a b → S (f a) (g b)) : Option.Rel S (x.map f) (y.map g) := by
  cases h with
  | none => exact .none
  | some hab => exact .some (hfg _ _ hab)

theorem rel_imp {α β : Type} {R S : α → β → Prop} {x : Option α} {y : Option β}
    (h : Option.Rel R x y) (hRS : ∀ a b, y = some b → R a b → S a b) : Option.Rel S x y := by
  cases h with
  | none => exact .none
  | some hab => exact .some (hRS _ _ rfl hab)

theorem rel_none {α β : Type} {R : α → β → Prop} {y : Option β} (h : Option.Rel R none y) :
    y = none := by
  cases h
  rfl

theorem rel_left {α β : Type} {R : α → β → Prop} {x : Option α} {y : Option β} {a : α}
    (h : Option.Rel R x y) (hx : x = some a) : ∃ b, y = some b ∧ R a b := by
  subst hx
  cases h with
  | some hab => exact ⟨_, rfl, hab⟩

theorem rel_right {α β : Type} {R : α → β → Prop} {x : Option α} {y : Option β} {b : β}
    (h : Option.Rel R x y) (hy : y = some b) : ∃ a, x = some a ∧ R a b := by
  subst hy
  cases h with
  | some hab => exact ⟨_, rfl, hab⟩

theorem rel_bind_same {α γ δ : Type} {S : γ → δ → Prop} (x : Option α) {f : α → Option γ}
    {g : α → Option δ} (hfg : ∀ a, x = some a → Option.Rel S (f a) (g a)) :
    Option.Rel S (x.bind f) (x.bind g) := by
  cases x with
  | none => exact .none
  | some a => exact hfg a rfl

/-- A loop that can go on from every state in which its invariant holds runs to
its end. The invariant is told what was done and what is still to do. -/
theorem foldlM_invariant {α σ : Type} {f : σ → α → Option σ}
    (I : (done rest : List α) → σ → Prop)
    (step : ∀ done x rest s, I done (x :: rest) s →
      ∃ s', f s x = some s' ∧ I (done ++ [x]) rest s')
    (done xs : List α) {s : σ} (h : I done xs s) :
    ∃ s', xs.foldlM f s = some s' ∧ I (done ++ xs) [] s' := by
  induction xs generalizing done s with
  | nil => exact ⟨s, rfl, by simpa using h⟩
  | cons x xs ih =>
    obtain ⟨s₁, hx, h₁⟩ := step done x xs s h
    obtain ⟨s₂, hxs, h₂⟩ := ih (done ++ [x]) h₁
    refine ⟨s₂, ?_, by simpa using h₂⟩
    rw [List.foldlM_cons, hx]
    exact hxs

theorem foldlM_same {α σ τ : Type} {f : σ → α → Option σ} (look : σ → τ) {xs : List α}
    {s s' : σ} (h : xs.foldlM f s = some s')
    (hf : ∀ x ∈ xs, ∀ s s', f s x = some s' → look s' = look s) : look s' = look s := by
  induction xs generalizing s with
  | nil =>
    cases h
    rfl
  | cons x xs ih =>
    rw [List.foldlM_cons] at h
    obtain ⟨s₁, hs₁, h⟩ := Option.bind_eq_some_iff.mp h
    exact (ih h fun y hy => hf y (List.mem_cons_of_mem x hy)).trans
      (hf x (List.mem_cons_self ..) s s₁ hs₁)

namespace Graph

variable {K D : Type}

theorem ext_fields {g h : Graph K D} (harena : g.arena = h.arena) (hvalues : g.values = h.values)
    (htangents : g.tangents = h.tangents) (hlabel : g.nextLabel = h.nextLabel)
    (hstamp : g.nextStamp = h.nextStamp) (hassigned : g.assigned = h.assigned)
    (haccess : g.access = h.access) : g = h := by
  cases g
  cases h
  simp only at harena hvalues htangents hlabel hstamp hassigned haccess
  rw [harena, hvalues, htangents, hlabel, hstamp, hassigned, haccess]

section Running

variable {α β : Type}

@[simp] theorem run_pure (x : α) (g : Graph K D) : (pure x : GraphM K D α) g = some (x, g) := rfl

theorem run_bind (m : GraphM K D α) (f : α → GraphM K D β) (g : Graph K D) :
    (m >>= f) g = (m g).bind fun r => f r.1 r.2 := rfl

@[simp] theorem run_get (g : Graph K D) : (get : GraphM K D (Graph K D)) g = some (g, g) := rfl

@[simp] theorem run_modify (f : Graph K D → Graph K D) (g : Graph K D) :
    (modify f : GraphM K D Unit) g = some ((), f g) := rfl

theorem run_borrowing (m : GraphM K D α) (g : Graph K D) :
    borrowing m g = (m { g with access.borrows := g.access.borrows + 1 }).map fun r =>
      (r.1, { r.2 with access.borrows := r.2.access.borrows - 1 }) := by
  rw [borrowing, run_bind, run_modify, Option.bind_some, Option.map_eq_bind]
  rfl

theorem run_look (f : Graph K D → α) (g : Graph K D) :
    look f g = some (f { g with access.borrows := g.access.borrows + 1 }, g) := rfl

@[simp] theorem run_editArena (f : Arena (Cell K D) → Arena (Cell K D)) (g : Graph K D) :
    (editArena f : GraphM K D Unit) g = some ((), { g with arena := f g.arena }) := rfl

@[simp] theorem run_fault (g : Graph K D) : (fault : GraphM K D α) g = none := rfl

@[simp] theorem run_ofOption (x : Option α) (g : Graph K D) :
    (ofOption x : GraphM K D α) g = x.map (·, g) := by
  cases x <;> rfl

theorem run_ofOption_bind (x : Option α) (f : α → GraphM K D β) (g : Graph K D) :
    (ofOption x >>= f) g = x.bind fun a => f a g := by
  cases x <;> rfl

theorem rel_ofOption {γ : Type} {R : γ → β × Graph K D → Prop} (x : Option α)
    {f : α → Option γ} {m : α → GraphM K D β} {g : Graph K D}
    (h : ∀ a, Option.Rel R (f a) (m a g)) : Option.Rel R (x.bind f) ((ofOption x >>= m) g) := by
  rw [run_ofOption_bind]
  exact rel_bind_same x fun a _ => h a

@[simp] theorem run_stamp (d : D) (g : Graph K D) :
    (stamp d : GraphM K D (Stamped D)) g =
      some (⟨g.nextStamp, d⟩, { g with nextStamp := g.nextStamp + 1 }) := rfl

@[simp] theorem run_cell (n : NodeId) (g : Graph K D) :
    (cell n : GraphM K D (Cell K D)) g = (g.arena.content? n).map (·, g) := by
  rw [cell, run_bind, run_get]
  exact run_ofOption _ _

end Running

/-- What a pass over derivatives leaves alone. -/
def statics (g : Graph K D) : Arena (Value K × Option (Formula K)) :=
  g.arena.mapContent fun c => (c.value, c.formula)

theorem contains_statics (g : Graph K D) (n : NodeId) :
    g.statics.contains n = g.arena.contains n := Arena.contains_mapContent _ _ _

theorem value?_statics (g : Graph K D) (n : NodeId) :
    (g.statics.content? n).map (·.1) = g.value? n := by
  rw [statics, Arena.content?_mapContent, Option.map_map]
  rfl

theorem formula?_statics (g : Graph K D) (n : NodeId) :
    (g.statics.content? n).bind (·.2) = g.formula? n := by
  rw [statics, Arena.content?_mapContent, Option.bind_map]
  rfl

section SameVariables

variable {g g' : Graph K D} (h : g'.statics = g.statics)
include h

theorem value?_congr : g'.value? = g.value? := by
  funext n
  rw [← value?_statics, h, value?_statics]

theorem formula?_congr : g'.formula? = g.formula? := by
  funext n
  rw [← formula?_statics, h, formula?_statics]

theorem contains_congr (n : NodeId) : g'.arena.contains n = g.arena.contains n := by
  rw [← contains_statics, h, contains_statics]

theorem sizeAt_congr : g'.sizeAt = g.sizeAt := by
  funext n
  rw [sizeAt, value?_congr h]
  rfl

end SameVariables

theorem isSome_value? (g : Graph K D) (n : NodeId) :
    (g.value? n).isSome = g.arena.contains n := by
  rw [value?, Arena.content?, Option.isSome_map, Option.isSome_map, Arena.contains]

theorem content?_updateCell (g : Graph K D) (n m : NodeId) (f : Cell K D → Cell K D) :
    (g.updateCell n f).arena.content? m =
      if m = n then (g.arena.content? m).map f else g.arena.content? m := by
  rw [updateCell, Arena.content?, Arena.node?_modify]
  split
  · rw [Option.map_map, Arena.content?, Option.map_map]
    rfl
  · rfl

def differential? (g : Graph K D) (n : NodeId) : Option D := (g.derivative? n).map (·.value)

theorem statics_setDerivative (g : Graph K D) (n : NodeId) (d : Option (Stamped D)) :
    (g.setDerivative n d).statics = g.statics := by
  unfold setDerivative updateCell statics
  apply Arena.mapContent_modify
  intro x
  rfl

theorem derivative?_setDerivative {g : Graph K D} {n : NodeId} (hn : g.arena.contains n)
    (m : NodeId) (d : Option (Stamped D)) :
    (g.setDerivative n d).derivative? m = if m = n then d else g.derivative? m := by
  rw [derivative?, setDerivative, content?_updateCell]
  split
  · rename_i h
    subst h
    obtain ⟨x, hx⟩ := Arena.contains_iff.mp hn
    simp [Arena.content?, hx]
  · rfl

theorem differential?_setDerivative {g : Graph K D} {n : NodeId} (hn : g.arena.contains n)
    (d : Option (Stamped D)) :
    (g.setDerivative n d).differential? =
      Function.update g.differential? n (d.map (·.value)) := by
  funext m
  rw [differential?, derivative?_setDerivative hn]
  by_cases h : m = n
  · subst h
    simp
  · simp [h, differential?]

@[simp] theorem values_setDerivative (g : Graph K D) (n : NodeId) (d : Option (Stamped D)) :
    (g.setDerivative n d).values = g.values := rfl

@[simp] theorem tangents_setDerivative (g : Graph K D) (n : NodeId) (d : Option (Stamped D)) :
    (g.setDerivative n d).tangents = g.tangents := rfl

structure OnlyDerivatives (g g' : Graph K D) : Prop where
  statics : g'.statics = g.statics
  values : g'.values = g.values
  tangents : g'.tangents = g.tangents
  label : g'.nextLabel = g.nextLabel
  stamp : g.nextStamp ≤ g'.nextStamp

namespace OnlyDerivatives

theorem refl (g : Graph K D) : OnlyDerivatives g g := ⟨rfl, rfl, rfl, rfl, Nat.le_refl _⟩

theorem trans {g g' g'' : Graph K D} (h : OnlyDerivatives g g') (h' : OnlyDerivatives g' g'') :
    OnlyDerivatives g g'' where
  statics := h'.statics.trans h.statics
  values := h'.values.trans h.values
  tangents := h'.tangents.trans h.tangents
  label := h'.label.trans h.label
  stamp := Nat.le_trans h.stamp h'.stamp

theorem setDerivative (g : Graph K D) (n : NodeId) (d : Option (Stamped D)) :
    OnlyDerivatives g (g.setDerivative n d) :=
  ⟨statics_setDerivative g n d, rfl, rfl, rfl, Nat.le_refl _⟩

end OnlyDerivatives

end Graph

end GradientGraph
