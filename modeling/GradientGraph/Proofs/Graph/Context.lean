import GradientGraph.Proofs.Graph.Value

/-!
# Expressions in a context

A context is an expression with a hole in any number of places. What stands in the hole can
be spelt out, or it can be given a variable and read there. Where the variable holds the value
and the tangent of what it stands for, the two expressions have the same value and the same
tangent. Labels, and which parts are shared, make no difference to either.
-/

set_option autoImplicit false

namespace GradientGraph

namespace Expression

variable {K : Type}

/-- The expression without its labels, each shared part spelt out where it stands. -/
def plain : Expression K → Expression K
  | .literal v => .literal v
  | .read _ n => .read 0 n
  | .unary k a => .unary k a.plain
  | .binary k l r => .binary k l.plain r.plain
  | .shared _ e => e.plain

inductive Context (K : Type) where
  | hole
  | literal (v : Value K)
  | read (label : Label) (n : NodeId)
  | unary (k : UnaryKernel) (arg : Context K)
  | binary (k : BinaryKernel) (left right : Context K)
  | shared (label : Label) (body : Context K)

namespace Context

def fill (e : Expression K) : Context K → Expression K
  | .hole => e
  | .literal v => .literal v
  | .read label n => .read label n
  | .unary k a => .unary k (a.fill e)
  | .binary k l r => .binary k (l.fill e) (r.fill e)
  | .shared label c => .shared label (c.fill e)

/-- In how many places the hole stands. -/
def holes : Context K → Nat
  | .hole => 1
  | .literal _ | .read _ _ => 0
  | .unary _ a => a.holes
  | .binary _ l r => l.holes + r.holes
  | .shared _ c => c.holes

def reads : Context K → List NodeId
  | .hole | .literal _ => []
  | .read _ n => [n]
  | .unary _ a => a.reads
  | .binary _ l r => l.reads ++ r.reads
  | .shared _ c => c.reads

variable {c : Context K} {e : Expression K} {u n : NodeId}

theorem mem_reads_fill : n ∈ (c.fill e).reads ↔ n ∈ c.reads ∨ 0 < c.holes ∧ n ∈ e.reads := by
  induction c with
  | hole => simp [fill, holes, reads]
  | literal => simp [fill, holes, reads, Expression.reads]
  | read => simp [fill, holes, reads, Expression.reads]
  | unary _ a ih => exact ih
  | shared _ c ih => exact ih
  | binary _ l r ihl ihr =>
    rw [fill, Expression.reads, List.mem_append, ihl, ihr, or_or_or_comm, ← or_and_right, reads,
      List.mem_append, holes, Nat.add_pos_iff_pos_or_pos]

end Context

section Plain

variable {e : Expression K}

theorem reads_plain : e.plain.reads = e.reads := by
  induction e with
  | literal => rfl
  | read => rfl
  | unary _ _ ih => exact ih
  | binary _ _ _ ihl ihr => rw [plain, reads, ihl, ihr, reads]
  | shared _ _ ih => exact ih

variable [Zero K] [One K] [Add K] [Mul K] [MulAdd K] [Capacity K] [NatCast K] [Calculus K]
  {ρ : NodeId → Option (Value K)}

theorem valueUnder_plain : e.plain.valueUnder ρ = e.valueUnder ρ := by
  induction e with
  | literal => rfl
  | read => rfl
  | unary _ _ ih => rw [plain, valueUnder, ih, valueUnder]
  | binary _ _ _ ihl ihr => rw [plain, valueUnder, ihl, ihr, valueUnder]
  | shared _ _ ih => exact ih

variable {D : Type} [Differential K D] {τ : NodeId → Option D}

theorem tangentUnder_plain : e.plain.tangentUnder ρ τ = e.tangentUnder ρ τ := by
  induction e with
  | literal => rfl
  | read => rfl
  | unary _ _ ih => rw [plain, tangentUnder, ih, valueUnder_plain, tangentUnder]
  | binary _ _ _ ihl ihr =>
    rw [plain, tangentUnder, ihl, ihr, valueUnder_plain, valueUnder_plain, tangentUnder]
  | shared _ _ ih => exact ih

end Plain

namespace Context

variable [Zero K] [One K] [Add K] [Mul K] [MulAdd K] [Capacity K] [NatCast K] [Calculus K]
  {ρ : NodeId → Option (Value K)} {c : Context K} {e : Expression K} {u : NodeId}

/-- To read a variable that has the value of the part is to compute the part. -/
theorem valueUnder_fill {label : Label} (h : 0 < c.holes → ρ u = e.valueUnder ρ) :
    (c.fill (.read label u)).valueUnder ρ = (c.fill e).valueUnder ρ := by
  induction c with
  | hole => exact h Nat.one_pos
  | literal => rfl
  | read => rfl
  | unary _ a ih => rw [fill, valueUnder, ih h, fill, valueUnder]
  | binary _ l r ihl ihr =>
    rw [fill, valueUnder, ihl fun hl => h (Nat.add_pos_left hl _),
      ihr fun hr => h (Nat.add_pos_right _ hr), fill, valueUnder]
  | shared _ c ih => exact ih h

theorem valueUnder_part (hc : 0 < c.holes) {v : Value K} (h : (c.fill e).valueUnder ρ = some v) :
    ∃ w, e.valueUnder ρ = some w := by
  induction c generalizing v with
  | hole => exact ⟨v, h⟩
  | literal => exact absurd hc (Nat.lt_irrefl 0)
  | read => exact absurd hc (Nat.lt_irrefl 0)
  | unary _ a ih =>
    obtain ⟨x, hx, -⟩ := Option.map_eq_some_iff.mp h
    exact ih hc hx
  | binary _ l r ihl ihr =>
    obtain ⟨x, hx, h⟩ := Option.bind_eq_some_iff.mp h
    obtain ⟨y, hy, -⟩ := Option.bind_eq_some_iff.mp h
    rcases Nat.add_pos_iff_pos_or_pos.mp hc with hl | hr
    · exact ihl hl hx
    · exact ihr hr hy
  | shared _ c ih => exact ih hc h

variable {D : Type} [Differential K D] {τ : NodeId → Option D}

theorem tangentUnder_fill {label : Label}
    (h : 0 < c.holes → ρ u = e.valueUnder ρ ∧ (ρ u).isSome ∧ e.tangentUnder ρ τ = some (τ u)) :
    (c.fill (.read label u)).tangentUnder ρ τ = (c.fill e).tangentUnder ρ τ := by
  induction c with
  | hole =>
    obtain ⟨-, hv, ht⟩ := h Nat.one_pos
    obtain ⟨v, hv⟩ := Option.isSome_iff_exists.mp hv
    rw [fill, fill, ht, tangentUnder, hv, Option.map_some]
  | literal => rfl
  | read => rfl
  | unary _ a ih =>
    have hvalue : (a.fill (.read label u)).valueUnder ρ = (a.fill e).valueUnder ρ :=
      valueUnder_fill fun hc => (h hc).1
    rw [fill, tangentUnder, ih h, hvalue, fill, tangentUnder]
  | binary _ l r ihl ihr =>
    have hl := fun hl : 0 < l.holes => h (Nat.add_pos_left hl _)
    have hr := fun hr : 0 < r.holes => h (Nat.add_pos_right _ hr)
    rw [fill, tangentUnder, ihl hl, ihr hr, valueUnder_fill fun hc => (hl hc).1,
      valueUnder_fill fun hc => (hr hc).1, fill, tangentUnder]
  | shared _ c ih => exact ih h

theorem tangentUnder_part (hc : 0 < c.holes) {t : Option D}
    (h : (c.fill e).tangentUnder ρ τ = some t) : ∃ t', e.tangentUnder ρ τ = some t' := by
  induction c generalizing t with
  | hole => exact ⟨t, h⟩
  | literal => exact absurd hc (Nat.lt_irrefl 0)
  | read => exact absurd hc (Nat.lt_irrefl 0)
  | unary _ a ih =>
    obtain ⟨s, hs, -⟩ := Option.bind_eq_some_iff.mp h
    exact ih hc hs
  | binary _ l r ihl ihr =>
    obtain ⟨s, hs, h⟩ := Option.bind_eq_some_iff.mp h
    obtain ⟨t, ht, -⟩ := Option.bind_eq_some_iff.mp h
    rcases Nat.add_pos_iff_pos_or_pos.mp hc with hl | hr
    · exact ihl hl hs
    · exact ihr hr ht
  | shared _ c ih => exact ih hc h

end Context

end Expression

end GradientGraph
