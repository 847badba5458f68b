import GradientGraph.Proofs.Graph.Traverse

/-!
# What shared parts remember

A shared part that has been evaluated once is not evaluated again, and the same
holds for its tangent. Evaluation takes what is remembered for the value of a part.
As long as everything remembered is right, evaluation and the forward traversal have
the results that they would have with nothing remembered, and what they add to the
memory is right again.
-/

set_option autoImplicit false

namespace GradientGraph

namespace Expression

variable {K : Type}

/-- Whether each shared part is the one that `β` knows under its label. -/
def NamedBy (β : Label → Expression K) : Expression K → Prop
  | .literal _ | .read _ _ => True
  | .unary _ a => a.NamedBy β
  | .binary _ l r => l.NamedBy β ∧ r.NamedBy β
  | .shared label e => β label = e ∧ e.NamedBy β

def HasLabel (e : Expression K) (label : Label) : Prop := e.footprint.labels.contains label

theorem hasLabel_binary {k : BinaryKernel} {l r : Expression K} {a : Label} :
    (binary k l r).HasLabel a ↔ l.HasLabel a ∨ r.HasLabel a := by
  simp [HasLabel, footprint, Footprint.join]

theorem hasLabel_shared {label : Label} {e : Expression K} {a : Label} :
    (shared label e).HasLabel a ↔ e.HasLabel a ∨ label = a := by
  simp [HasLabel, footprint, Footprint.insert]

theorem hasLabel_left {k : BinaryKernel} {l r : Expression K} {a : Label} (h : l.HasLabel a) :
    (binary k l r).HasLabel a := hasLabel_binary.mpr (.inl h)

theorem hasLabel_right {k : BinaryKernel} {l r : Expression K} {a : Label} (h : r.HasLabel a) :
    (binary k l r).HasLabel a := hasLabel_binary.mpr (.inr h)

theorem hasLabel_body {label : Label} {e : Expression K} {a : Label} (h : e.HasLabel a) :
    (shared label e).HasLabel a := hasLabel_shared.mpr (.inl h)

inductive Part (d : Expression K) : Expression K → Prop where
  | self : Part d d
  | unary {k : UnaryKernel} {a : Expression K} : Part d a → Part d (.unary k a)
  | left {k : BinaryKernel} {l r : Expression K} : Part d l → Part d (.binary k l r)
  | right {k : BinaryKernel} {l r : Expression K} : Part d r → Part d (.binary k l r)
  | body {label : Label} {e : Expression K} : Part d e → Part d (.shared label e)

namespace Part

variable {label : Label} {c d e : Expression K}

theorem trans (h : Part c d) (h' : Part d e) : Part c e := by
  induction h' with
  | self => exact h
  | unary _ ih => exact .unary ih
  | left _ ih => exact .left ih
  | right _ ih => exact .right ih
  | body _ ih => exact .body ih

theorem hasLabel (h : Part (.shared label d) e) : e.HasLabel label := by
  induction h with
  | self => exact hasLabel_shared.mpr (.inr rfl)
  | unary _ ih => exact ih
  | left _ ih => exact hasLabel_left ih
  | right _ ih => exact hasLabel_right ih
  | body _ ih => exact hasLabel_body ih

theorem named {β : Label → Expression K} (h : Part (.shared label d) e) (he : e.NamedBy β) :
    β label = d := by
  induction h with
  | self => exact he.1
  | unary _ ih => exact ih he
  | left _ ih => exact ih he.1
  | right _ ih => exact ih he.2
  | body _ ih => exact ih he.2

end Part

theorem HasLabel.part {label : Label} {e : Expression K} (h : e.HasLabel label) :
    ∃ d, Part (.shared label d) e := by
  induction e with
  | literal => simp [HasLabel, footprint, Footprint.empty] at h
  | read => simp [HasLabel, footprint, Footprint.ofNode] at h
  | unary k a ih =>
    obtain ⟨d, hd⟩ := ih h
    exact ⟨d, .unary hd⟩
  | binary k l r ihl ihr =>
    rcases hasLabel_binary.mp h with h | h
    · obtain ⟨d, hd⟩ := ihl h
      exact ⟨d, .left hd⟩
    · obtain ⟨d, hd⟩ := ihr h
      exact ⟨d, .right hd⟩
  | shared label' e ih =>
    rcases hasLabel_shared.mp h with h | rfl
    · obtain ⟨d, hd⟩ := ih h
      exact ⟨d, .body hd⟩
    · exact ⟨e, .self⟩

section Remembered

variable [Zero K] [Add K] [Mul K] [MulAdd K] [Capacity K] [NatCast K] [Calculus K]

def valueFrom (μ : Label → Option (Value K)) (ρ : NodeId → Option (Value K)) :
    Expression K → Option (Value K)
  | .literal v => some v
  | .read _ n => ρ n
  | .unary k a => (a.valueFrom μ ρ).map k.eval
  | .binary k l r => do k.eval (← l.valueFrom μ ρ) (← r.valueFrom μ ρ)
  | .shared label e =>
    match μ label with
    | some v => some v
    | none => e.valueFrom μ ρ

theorem valueFrom_eq [One K] {μ : Label → Option (Value K)} {ρ : NodeId → Option (Value K)}
    {e : Expression K} (h : ∀ label d v, Part (.shared label d) e → μ label = some v →
      d.valueUnder ρ = some v) : e.valueFrom μ ρ = e.valueUnder ρ := by
  induction e with
  | literal => rfl
  | read => rfl
  | unary k a ih => rw [valueFrom, valueUnder, ih fun i d v hd => h i d v (.unary hd)]
  | binary k l r ihl ihr =>
    rw [valueFrom, valueUnder, ihl fun i d v hd => h i d v (.left hd),
      ihr fun i d v hd => h i d v (.right hd)]
  | shared label e ih =>
    rw [valueFrom, valueUnder]
    split
    · rename_i v hv
      exact (h label e v .self hv).symm
    · exact ih fun i d v hd => h i d v (.body hd)

end Remembered

end Expression

namespace Expression

variable {K D : Type} [Zero K] [One K] [Add K] [Mul K] [MulAdd K] [Capacity K] [NatCast K]
  [Calculus K] [Differential K D]

/-- The tangent under an assignment of values and tangents to variables, computed
without remembering anything. -/
def tangentUnder (ρ : NodeId → Option (Value K)) (τ : NodeId → Option D) :
    Expression K → Option (Option D)
  | .literal _ => some none
  | .read _ n => (ρ n).map fun _ => τ n
  | .unary k a => do
    match ← a.tangentUnder ρ τ with
    | none => return none
    | some t =>
      let x ← a.valueUnder ρ
      return some (← Differential.pushThrough (k.jacobian x) t)
  | .binary k l r => do
    match ← l.tangentUnder ρ τ, ← r.tangentUnder ρ τ with
    | none, none => return none
    | s, t => do
      let x ← l.valueUnder ρ
      let y ← r.valueUnder ρ
      k.pushForward x y s t
  | .shared _ e => e.tangentUnder ρ τ

theorem tangentUnder_congr {e : Expression K} {ρ : NodeId → Option (Value K)}
    {σ τ : NodeId → Option D} (h : ∀ n ∈ e.reads, σ n = τ n) :
    e.tangentUnder ρ σ = e.tangentUnder ρ τ := by
  induction e with
  | literal v => rfl
  | read label n => rw [tangentUnder, tangentUnder, h n (List.mem_singleton.mpr rfl)]
  | unary k a ih => rw [tangentUnder, tangentUnder, ih h]
  | binary k l r ihl ihr =>
    rw [tangentUnder, tangentUnder, ihl fun n hn => h n (List.mem_append_left _ hn),
      ihr fun n hn => h n (List.mem_append_right _ hn)]
  | shared label e ih => exact ih h

end Expression

namespace Graph

variable {K D : Type}

def remembering (vs : List (Label × Value K)) (g : Graph K D) : Graph K D :=
  { g with values := vs ++ g.values }

theorem mem_of_lookup {α : Type} {xs : List (Label × α)} {label : Label} {x : α}
    (h : xs.lookup label = some x) : (label, x) ∈ xs := by
  obtain ⟨l, r, rfl, -⟩ := List.lookup_eq_some_iff.mp h
  exact List.mem_append_right l (List.mem_cons_self ..)

section Values

variable [Zero K] [One K] [Add K] [Mul K] [MulAdd K] [Capacity K] [NatCast K] [Calculus K]

def ValuesOf (β : Label → Expression K) (e : Expression K) (ρ : NodeId → Option (Value K))
    (vs : List (Label × Value K)) : Prop :=
  ∀ p ∈ vs, e.HasLabel p.1 ∧ (β p.1).valueUnder ρ = some p.2

def RecallsValues (β : Label → Expression K) (e : Expression K) (g : Graph K D) : Prop :=
  ∀ p ∈ g.values, e.HasLabel p.1 → (β p.1).valueUnder g.value? = some p.2

variable {β : Label → Expression K} {d e : Expression K} {ρ : NodeId → Option (Value K)}
  {g : Graph K D}

theorem ValuesOf.nil : ValuesOf β e ρ [] := by
  intro p hp
  cases hp

theorem ValuesOf.mono {vs : List (Label × Value K)} (h : ValuesOf β d ρ vs)
    (hde : ∀ a, d.HasLabel a → e.HasLabel a) : ValuesOf β e ρ vs := by
  intro p hp
  exact ⟨hde _ (h p hp).1, (h p hp).2⟩

theorem ValuesOf.append {vs ws : List (Label × Value K)} (hv : ValuesOf β e ρ vs)
    (hw : ValuesOf β e ρ ws) : ValuesOf β e ρ (vs ++ ws) := by
  intro p hp
  rcases List.mem_append.mp hp with h | h
  · exact hv p h
  · exact hw p h

theorem RecallsValues.mono (h : g.RecallsValues β e) (hde : ∀ a, d.HasLabel a → e.HasLabel a) :
    g.RecallsValues β d := by
  intro p hp hd
  exact h p hp (hde _ hd)

end Values

section Additions

variable [Zero K] [Add K] [Mul K] [MulAdd K] [Capacity K] [NatCast K] [Calculus K]

def Adds (β : Label → Expression K) (g : Graph K D) (p : Label × Value K) : Prop :=
  g.remembered? p.1 = none ∧ (β p.1).valueFrom g.remembered? g.value? = some p.2

end Additions

end Graph

namespace Expression

open GradientGraph.Graph

variable {K D : Type} [Zero K] [Add K] [Mul K] [MulAdd K] [Capacity K] [NatCast K]
  [Calculus K] {β : Label → Expression K}

/-- Evaluation takes what was remembered before it for the value of a part. What other
parts remember by then was added on the way. -/
theorem evaluate_adds {e : Expression K} (hβ : e.NamedBy β) {g : Graph K D}
    (ws : List (Label × Value K)) (hws : ∀ p ∈ ws, g.Adds β p) :
    ∃ vs, (∀ p ∈ vs, e.HasLabel p.1 ∧ g.Adds β p) ∧
      (e.evaluate : GraphM K D (Value K)) (g.remembering ws) =
        (e.valueFrom g.remembered? g.value?).map (·, g.remembering (vs ++ ws)) := by
  -- what was added so far is carried along: the right operand starts with what the left added
  induction e generalizing ws with
  | literal v => exact ⟨[], by simp, rfl⟩
  | read label n =>
    refine ⟨[], by simp, ?_⟩
    rw [evaluate, run_bind, run_cell, valueFrom, value?, Option.map_map, Option.bind_map,
      Option.map_eq_bind]
    rfl
  | unary k a ih =>
    obtain ⟨vs, hvs, hrun⟩ := ih hβ ws hws
    refine ⟨vs, hvs, ?_⟩
    rw [evaluate, run_bind, hrun, valueFrom, Option.map_map, Option.bind_map,
      Option.map_eq_bind]
    rfl
  | binary k l r ihl ihr =>
    obtain ⟨vs, hvs, hleft⟩ := ihl hβ.1 ws hws
    obtain ⟨us, hus, hright⟩ := ihr hβ.2 (vs ++ ws)
      (List.forall_mem_append.mpr ⟨fun p hp => (hvs p hp).2, hws⟩)
    refine ⟨us ++ vs, List.forall_mem_append.mpr ⟨fun p hp => ?_, fun p hp => ?_⟩, ?_⟩
    · exact ⟨hasLabel_right (hus p hp).1, (hus p hp).2⟩
    · exact ⟨hasLabel_left (hvs p hp).1, (hvs p hp).2⟩
    · rw [evaluate, run_bind, hleft, valueFrom]
      cases l.valueFrom g.remembered? g.value? with
      | none => rfl
      | some x =>
        simp only [Option.map_some, Option.bind_some, run_bind, hright, List.append_assoc]
        cases r.valueFrom g.remembered? g.value? with
        | none => rfl
        | some y =>
          simp only [Option.map_some, Option.bind_some, run_ofOption]
          rfl
  | shared label e ih =>
    have hlookup : (g.remembering ws).remembered? label =
        (ws.lookup label).or (g.remembered? label) := List.lookup_append
    rw [evaluate, run_bind, run_get, Option.bind_some, hlookup, valueFrom]
    cases hadded : ws.lookup label with
    | some v =>
      -- added on the way, by another occurrence of this part
      obtain ⟨hnone, hv⟩ := hws (label, v) (mem_of_lookup hadded)
      refine ⟨[], by simp, ?_⟩
      rw [hnone, ← hβ.1, hv]
      rfl
    | none =>
      rw [Option.none_or]
      cases hbefore : g.remembered? label with
      | some v => exact ⟨[], by simp, rfl⟩
      | none =>
        obtain ⟨vs, hvs, hrun⟩ := ih hβ.2 ws hws
        cases hv : e.valueFrom g.remembered? g.value? with
        | none =>
          refine ⟨[], by simp, ?_⟩
          simp [run_bind, hrun, hv]
        | some v =>
          refine ⟨(label, v) :: vs, ?_, ?_⟩
          · intro p hp
            rcases List.mem_cons.mp hp with rfl | hp
            · exact ⟨hasLabel_shared.mpr (.inr rfl), hbefore, by rw [hβ.1, hv]⟩
            · exact ⟨hasLabel_body (hvs p hp).1, (hvs p hp).2⟩
          · simp only [run_bind, hrun, hv, Option.map_some, Option.bind_some]
            rfl

variable [One K]

/-- Evaluation has the value it would have without a memory, if what is remembered is right. -/
theorem evaluate_run {e : Expression K} (hβ : e.NamedBy β) {g : Graph K D}
    (hg : g.RecallsValues β e) :
    ∃ vs, ValuesOf β e g.value? vs ∧
      (e.evaluate : GraphM K D (Value K)) g =
        (e.valueUnder g.value?).map (·, g.remembering vs) := by
  have hright {d : Expression K}
      (hd : ∀ label c, Part (.shared label c) d → Part (.shared label c) e) :
      d.valueFrom g.remembered? g.value? = d.valueUnder g.value? := by
    apply valueFrom_eq
    intro label c v hc hv
    rw [← (hd label c hc).named hβ]
    exact hg (label, v) (mem_of_lookup hv) (hd label c hc).hasLabel
  obtain ⟨vs, hvs, hrun⟩ := evaluate_adds hβ (g := g) [] (by simp)
  rw [hright fun _ _ h => h, List.append_nil] at hrun
  refine ⟨vs, ?_, hrun⟩
  intro p hp
  obtain ⟨hlabel, -, hv⟩ := hvs p hp
  obtain ⟨d, hd⟩ := hlabel.part
  refine ⟨hlabel, ?_⟩
  rw [← hv, hd.named hβ]
  exact (hright fun _ _ h => (h.trans (.body .self)).trans hd).symm

end Expression

namespace Graph

variable {K D : Type} [Zero K] [One K] [Add K] [Mul K] [MulAdd K] [Capacity K] [NatCast K]
  [Calculus K] [Differential K D]

def TangentsOf (β : Label → Expression K) (e : Expression K) (ρ : NodeId → Option (Value K))
    (τ : NodeId → Option D) (ts : List (Label × Option (Stamped D))) : Prop :=
  ∀ p ∈ ts, e.HasLabel p.1 ∧ (β p.1).tangentUnder ρ τ = some (p.2.map (·.value))

def RecallsTangents (β : Label → Expression K) (e : Expression K) (g : Graph K D) : Prop :=
  ∀ p ∈ g.tangents, e.HasLabel p.1 →
    (β p.1).tangentUnder g.value? g.differential? = some (p.2.map (·.value))

/-- `g'` is `g` with more remembered of parts of `e`, and with later stamps. -/
def Learns (β : Label → Expression K) (e : Expression K) (g g' : Graph K D) : Prop :=
  ∃ vs ts s, ValuesOf β e g.value? vs ∧ TangentsOf β e g.value? g.differential? ts ∧
    g.nextStamp ≤ s ∧
    g' = { g with values := vs ++ g.values, tangents := ts ++ g.tangents, nextStamp := s }

variable {β : Label → Expression K} {d e : Expression K} {g g' g'' : Graph K D}

theorem RecallsTangents.mono (h : g.RecallsTangents β e)
    (hde : ∀ a, d.HasLabel a → e.HasLabel a) : g.RecallsTangents β d := by
  intro p hp hd
  exact h p hp (hde _ hd)

namespace Learns

theorem refl : Learns β e g g := by
  refine ⟨[], [], g.nextStamp, .nil, ?_, Nat.le_refl _, rfl⟩
  intro p hp
  cases hp

theorem mono (h : Learns β d g g') (hde : ∀ a, d.HasLabel a → e.HasLabel a) :
    Learns β e g g' := by
  obtain ⟨vs, ts, s, hvs, hts, hs, hg⟩ := h
  refine ⟨vs, ts, s, hvs.mono hde, ?_, hs, hg⟩
  intro p hp
  exact ⟨hde _ (hts p hp).1, (hts p hp).2⟩

theorem trans (h : Learns β e g g') (h' : Learns β e g' g'') : Learns β e g g'' := by
  obtain ⟨vs, ts, s, hvs, hts, hs, rfl⟩ := h
  obtain ⟨ws, us, s', hws, hus, hs', rfl⟩ := h'
  refine ⟨ws ++ vs, us ++ ts, s', hws.append hvs, ?_, Nat.le_trans hs hs', by simp⟩
  intro p hp
  rcases List.mem_append.mp hp with hp | hp
  · exact hus p hp
  · exact hts p hp

theorem remembering {vs : List (Label × Value K)} (h : ValuesOf β e g.value? vs) :
    Learns β e g (g.remembering vs) := by
  refine ⟨vs, [], g.nextStamp, h, ?_, Nat.le_refl _, rfl⟩
  intro p hp
  cases hp

theorem stamping : Learns β e g { g with nextStamp := g.nextStamp + 1 } := by
  refine ⟨[], [], g.nextStamp + 1, .nil, ?_, Nat.le_succ _, rfl⟩
  intro p hp
  cases hp

theorem tangent {label : Label} {t : Option (Stamped D)} (he : e.HasLabel label)
    (ht : (β label).tangentUnder g.value? g.differential? = some (t.map (·.value))) :
    Learns β e g (g.rememberTangent label t) := by
  refine ⟨[], [(label, t)], g.nextStamp, .nil, ?_, Nat.le_refl _, rfl⟩
  intro p hp
  obtain rfl := List.mem_singleton.mp hp
  exact ⟨he, ht⟩

theorem value?_eq (h : Learns β e g g') : g'.value? = g.value? := by
  obtain ⟨_, _, _, _, _, _, rfl⟩ := h
  rfl

theorem differential?_eq (h : Learns β e g g') : g'.differential? = g.differential? := by
  obtain ⟨_, _, _, _, _, _, rfl⟩ := h
  rfl

theorem recallsValues (h : Learns β d g g') (hg : g.RecallsValues β e) :
    g'.RecallsValues β e := by
  obtain ⟨vs, _, _, hvs, _, _, rfl⟩ := h
  intro p hp he
  rcases List.mem_append.mp hp with hp | hp
  · exact (hvs p hp).2
  · exact hg p hp he

theorem recallsTangents (h : Learns β d g g') (hg : g.RecallsTangents β e) :
    g'.RecallsTangents β e := by
  obtain ⟨_, ts, _, _, hts, _, rfl⟩ := h
  intro p hp he
  rcases List.mem_append.mp hp with hp | hp
  · exact (hts p hp).2
  · exact hg p hp he

end Learns

end Graph

namespace Expression

open GradientGraph.Graph

variable {K D : Type} [Zero K] [One K] [Add K] [Mul K] [MulAdd K] [Capacity K] [NatCast K]
  [Calculus K] [Differential K D] {β : Label → Expression K}

theorem evaluate_learns {e : Expression K} (hβ : e.NamedBy β) {g : Graph K D}
    (hg : g.RecallsValues β e) :
    Option.Rel (fun v r => r.1 = v ∧ Learns β e g r.2) (e.valueUnder g.value?)
      ((e.evaluate : GraphM K D (Value K)) g) := by
  obtain ⟨vs, hvs, hrun⟩ := evaluate_run hβ hg
  rw [hrun]
  cases e.valueUnder g.value? with
  | none => exact .none
  | some v => exact .some ⟨rfl, .remembering hvs⟩

def Agrees (β : Label → Expression K) (e : Expression K) (g : Graph K D) (t : Option D)
    (r : Option (Stamped D) × Graph K D) : Prop :=
  r.1.map (·.value) = t ∧ Learns β e g r.2

theorem stamp_run {e : Expression K} {g g' : Graph K D} (h : Learns β e g g') (x : Option D) :
    Option.Rel (Agrees β e g)
      (x.bind fun d => some (some d))
      ((do return some (← stamp (← ofOption x)) : GraphM K D (Option (Stamped D))) g') :=
  rel_ofOption x fun _ => .some ⟨rfl, h.trans .stamping⟩

theorem carry_run {e : Expression K} {g g' : Graph K D} (h : Learns β e g g') (k : BinaryKernel)
    (x y : Value K) (s t : Option (Stamped D)) :
    Option.Rel (Agrees β e g) (k.pushForward x y (s.map (·.value)) (t.map (·.value)))
      ((k.carry x y s t : GraphM K D (Option (Stamped D))) g') := by
  rw [BinaryKernel.carry, run_ofOption_bind]
  cases k.pushForward x y (s.map (·.value)) (t.map (·.value)) with
  | none => exact .none
  | some u =>
    cases u with
    | none => exact .some ⟨rfl, h⟩
    | some d => exact .some ⟨rfl, h.trans .stamping⟩

theorem operands_run {k : BinaryKernel} {l r : Expression K} (hβ : (binary k l r).NamedBy β)
    {g : Graph K D} (hg : g.RecallsValues β (binary k l r)) {α γ : Type}
    {R : γ → α × Graph K D → Prop} {f : Value K → Value K → Option γ}
    {m : Value K → Value K → GraphM K D α}
    (hm : ∀ x y g', Learns β (binary k l r) g g' → Option.Rel R (f x y) (m x y g')) :
    Option.Rel R
      ((l.valueUnder g.value?).bind fun x => (r.valueUnder g.value?).bind fun y => f x y)
      ((l.evaluate >>= fun x => r.evaluate >>= fun y => m x y : GraphM K D α) g) := by
  have hl : ∀ a, l.HasLabel a → (binary k l r).HasLabel a := fun _ => hasLabel_left
  have hr : ∀ a, r.HasLabel a → (binary k l r).HasLabel a := fun _ => hasLabel_right
  rw [run_bind]
  apply rel_bind (evaluate_learns hβ.1 (hg.mono hl))
  rintro _ ⟨x, g₁⟩ ⟨rfl, h₁ : Learns β l g g₁⟩
  rw [run_bind, ← h₁.value?_eq]
  apply rel_bind (evaluate_learns hβ.2 ((h₁.recallsValues hg).mono hr))
  rintro _ ⟨y, g₂⟩ ⟨rfl, h₂ : Learns β r g₁ g₂⟩
  exact hm x y g₂ ((h₁.mono hl).trans (h₂.mono hr))

/-- The forward traversal has the tangent it would have without a memory. -/
theorem pushForward_run {e : Expression K} (hβ : e.NamedBy β) {g : Graph K D}
    (hv : g.RecallsValues β e) (ht : g.RecallsTangents β e) :
    Option.Rel (Agrees β e g)
      (e.tangentUnder g.value? g.differential?)
      ((e.pushForward : GraphM K D (Option (Stamped D))) g) := by
  induction e generalizing g with
  | literal v => exact .some ⟨rfl, .refl⟩
  | read label n =>
    rw [pushForward, run_bind, run_cell, tangentUnder, value?, Option.map_map]
    cases hc : g.arena.content? n with
    | none => exact .none
    | some c =>
      refine .some ⟨?_, .refl⟩
      simp [differential?, derivative?, hc]
  | unary k a ih =>
    rw [pushForward, tangentUnder, run_bind]
    apply rel_bind (ih hβ hv ht)
    rintro _ ⟨t, g₁⟩ ⟨rfl, h₁ : Learns β a g g₁⟩
    cases t with
    | none => exact .some ⟨rfl, h₁⟩
    | some t =>
      change Option.Rel _ ((a.valueUnder g.value?).bind _) ((a.evaluate >>= _ : GraphM K D _) g₁)
      rw [run_bind, ← h₁.value?_eq]
      apply rel_bind (evaluate_learns (e := a) hβ (h₁.recallsValues hv))
      rintro _ ⟨x, g₂⟩ ⟨rfl, h₂ : Learns β a g₁ g₂⟩
      exact stamp_run (h₁.trans h₂) _
  | binary k l r ihl ihr =>
    have hl : ∀ a, l.HasLabel a → (binary k l r).HasLabel a := fun _ => hasLabel_left
    have hr : ∀ a, r.HasLabel a → (binary k l r).HasLabel a := fun _ => hasLabel_right
    rw [pushForward_binary, tangentUnder, run_bind]
    apply rel_bind (ihl hβ.1 (hv.mono hl) (ht.mono hl))
    rintro _ ⟨s, g₁⟩ ⟨rfl, h₁ : Learns β l g g₁⟩
    have hv₁ := h₁.recallsValues hv
    have ht₁ := h₁.recallsTangents ht
    -- the left operand has learnt by now, but values and derivatives are what they were
    rw [← h₁.value?_eq, ← h₁.differential?_eq, run_bind]
    apply rel_bind (ihr hβ.2 (hv₁.mono hr) (ht₁.mono hr))
    rintro _ ⟨t, g₂⟩ ⟨rfl, h₂ : Learns β r g₁ g₂⟩
    have h₁₂ : Learns β (binary k l r) g g₂ := (h₁.mono hl).trans (h₂.mono hr)
    rw [← h₂.value?_eq]
    have hcarry := operands_run hβ (h₂.recallsValues hv₁) fun x y g₃ h₃ =>
      carry_run (h₁₂.trans h₃) k x y s t
    cases s with
    | none =>
      cases t with
      | none => exact .some ⟨rfl, h₁₂⟩
      | some t => exact hcarry
    | some s => exact hcarry
  | shared label e ih =>
    have he : ∀ a, e.HasLabel a → (shared label e).HasLabel a := fun _ => hasLabel_body
    rw [pushForward, run_bind, run_get, Option.bind_some, tangentUnder]
    -- what is remembered is right, and what is not is found first
    cases hlabel : g.rememberedTangent? label with
    | some t =>
      have htan := ht _ (mem_of_lookup hlabel) (hasLabel_shared.mpr (.inr rfl))
      rw [← hβ.1, htan]
      exact .some ⟨rfl, .refl⟩
    | none =>
      have hrel := ih hβ.2 (hv.mono he) (ht.mono he)
      change Option.Rel _ _ ((e.pushForward >>= _ : GraphM K D _) g)
      rw [run_bind]
      generalize hx : e.tangentUnder g.value? g.differential? = x at hrel ⊢
      generalize (e.pushForward : GraphM K D (Option (Stamped D))) g = y at hrel ⊢
      cases hrel with
      | none => exact .none
      | some h =>
        obtain ⟨rfl, h₁⟩ := h
        refine .some ⟨rfl, (h₁.mono he).trans (.tangent (hasLabel_shared.mpr (.inr rfl)) ?_)⟩
        rw [h₁.value?_eq, h₁.differential?_eq, hβ.1]
        exact hx

end Expression

end GradientGraph
