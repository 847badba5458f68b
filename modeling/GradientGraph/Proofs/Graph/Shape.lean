import GradientGraph.Proofs.Algebra.KernelShape
import GradientGraph.Proofs.Graph.Value

/-!
# Shapes of expressions

The shapes of the variables that an expression reads decide whether it has a value, and of
what shape. `Shaped` is the rule by which the operators tell; an expression that follows it
is evaluated, and both traversals of it work on matrices of the dimensions that the sizes
ask for. Numbers play no part in this: it holds of rounded scalars.
-/

set_option autoImplicit false

namespace GradientGraph

variable {K : Type}

def shapes (ρ : NodeId → Option (Value K)) (n : NodeId) : Option Shape := (ρ n).map (·.shape)

theorem sizeUnder_of_shapes {ρ : NodeId → Option (Value K)} {n : NodeId} {s : Shape}
    (h : shapes ρ n = some s) : sizeUnder ρ n = s.size := by
  obtain ⟨v, hv, rfl⟩ := Option.map_eq_some_iff.mp h
  rw [sizeUnder, hv]
  rfl

namespace Expression

/-- Whether the expression has a value of the shape where the variables have the shapes
that `Γ` gives. -/
inductive Shaped (Γ : NodeId → Option Shape) : Expression K → Shape → Prop
  | literal (v : Value K) : Shaped Γ (.literal v) v.shape
  | read (label : Label) {n : NodeId} {s : Shape} : Γ n = some s → Shaped Γ (.read label n) s
  | unary {k : UnaryKernel} {a : Expression K} {s : Shape} : Shaped Γ a s →
      Shaped Γ (.unary k a) (k.shape s)
  | binary {k : BinaryKernel} {l r : Expression K} {s t u : Shape} : Shaped Γ l s →
      Shaped Γ r t → k.Makes s t u → Shaped Γ (.binary k l r) u
  | shared {label : Label} {e : Expression K} {s : Shape} : Shaped Γ e s →
      Shaped Γ (.shared label e) s

variable {Γ Δ : NodeId → Option Shape} {e : Expression K} {s : Shape}

theorem Shaped.congr (h : e.Shaped Γ s)
    (hreads : ∀ n ∈ e.reads, ∀ t, Γ n = some t → Δ n = some t) : e.Shaped Δ s := by
  induction h with
  | literal v => exact .literal v
  | read label hn => exact .read label (hreads _ (List.mem_singleton.mpr rfl) _ hn)
  | unary _ ih => exact .unary (ih hreads)
  | binary _ _ hk ihl ihr =>
    exact .binary (ihl fun n hn => hreads n (List.mem_append_left _ hn))
      (ihr fun n hn => hreads n (List.mem_append_right _ hn)) hk
  | shared _ ih => exact .shared (ih hreads)

variable [Zero K] [One K] [Add K] [Mul K] [MulAdd K] [Capacity K] [NatCast K] [Calculus K]
  {ρ : NodeId → Option (Value K)}

/-- An expression that follows the rule is evaluated, if there is room. -/
theorem Shaped.value (h : e.Shaped (shapes ρ) s) :
    Delivers (Roomy K) (·.shape = s) (e.valueUnder ρ) := by
  induction h with
  | literal v => exact .some rfl
  | read label hn =>
    obtain ⟨v, hv, rfl⟩ := Option.map_eq_some_iff.mp hn
    rw [valueUnder, hv]
    exact .some rfl
  | @unary k a s _ ih =>
    refine ih.map fun x _ hx => ?_
    rw [k.shape_eval, hx]
  | binary _ _ hk ihl ihr =>
    refine ihl.bind fun x _ hx => ihr.bind fun y _ hy => ?_
    exact BinaryKernel.eval_of_makes (by rwa [hx, hy])
  | shared _ ih => exact ih

end Expression

/-- Whether every formula has a value of the shape of the variable that it computes. -/
def Fitted (Γ : NodeId → Option Shape) (φ : NodeId → Option (Formula K)) : Prop :=
  ∀ n a, φ n = some a → ∃ s, Γ n = some s ∧ a.expression.Shaped Γ s

/-- Whether the derivatives that the variables of the list hold have the dimensions that
`δ` asks for. A variable may hold none. -/
def Sized (δ : NodeId → Nat × Nat) (ns : List NodeId) (τ : NodeId → Option (Mat K)) : Prop :=
  ∀ n ∈ ns, ∀ d, τ n = some d → d.dims = δ n

namespace Sized

variable {δ : NodeId → Nat × Nat} {ns ms : List NodeId} {τ : NodeId → Option (Mat K)}

theorem mono (h : Sized δ ns τ) (hms : ∀ n ∈ ms, n ∈ ns) : Sized δ ms τ :=
  fun n hn => h n (hms n hn)

theorem update (h : Sized δ ns τ) {n : NodeId} {t : Option (Mat K)}
    (ht : ∀ d, t = some d → d.dims = δ n) (hms : ∀ m ∈ ms, m = n ∨ m ∈ ns) :
    Sized δ ms (Function.update τ n t) := by
  intro m hm d hd
  by_cases hmn : m = n
  · subst hmn
    rw [Function.update_self] at hd
    exact ht d hd
  · rw [Function.update_of_ne hmn] at hd
    exact h m ((hms m hm).resolve_left hmn) d hd

end Sized

def Flowing (ρ : NodeId → Option (Value K)) (m : Nat) (ps : List (NodeId × Mat K)) : Prop :=
  ∀ p ∈ ps, p.2.dims = (m, sizeUnder ρ p.1)

theorem Flowing.nil {ρ : NodeId → Option (Value K)} {m : Nat} : Flowing ρ m [] :=
  fun _ hp => absurd hp List.not_mem_nil

theorem Sized.addFlows [Zero K] [One K] [Add K] [Mul K] [MulAdd K] [Capacity K]
    {δ : NodeId → Nat × Nat} {ns : List NodeId} {room : Prop} {τ : NodeId → Option (Mat K)}
    (h : Sized δ ns τ) {ps : List (NodeId × Mat K)}
    (hps : ∀ p ∈ ps, p.1 ∈ ns ∧ p.2.dims = δ p.1) :
    Delivers room (Sized δ ns) (GradientGraph.addFlows τ ps) := by
  induction ps generalizing τ with
  | nil => exact .some h
  | cons p ps ih =>
    obtain ⟨hn, hp⟩ := hps p (List.mem_cons_self ..)
    have hsum : Delivers room (·.dims = δ p.1) (added (τ p.1) p.2) := by
      cases hold : τ p.1 with
      | none => exact .some hp
      | some old =>
        have hdims := h p.1 hn old hold
        exact (Mat.dims_accumulate (hp.trans hdims.symm)).imp fun d _ hd => hd.trans hdims
    have hstep : Delivers room (Sized δ ns) (addFlow τ p) := by
      refine hsum.map fun d _ hd => h.update ?_ fun m hm => .inr hm
      rintro _ ⟨⟩
      exact hd
    exact hstep.bind fun σ _ hσ => ih hσ fun q hq => hps q (List.mem_cons_of_mem p hq)

variable [Zero K] [One K] [Add K] [Mul K] [MulAdd K] [Capacity K] [Calculus K]
  {ρ : NodeId → Option (Value K)} {τ : NodeId → Option (Mat K)} {w m : Nat}

section Forward

theorem BinaryKernel.dims_pushForward {k : BinaryKernel} {x y : Value K} {u : Shape}
    (hk : k.Makes x.shape y.shape u) {s t : Option (Mat K)}
    (hs : ∀ d, s = some d → d.dims = (x.size, w)) (ht : ∀ d, t = some d → d.dims = (y.size, w)) :
    Delivers (Roomy K) (fun o => ∀ d, o = some d → d.dims = (u.size, w))
      (k.pushForward x y s t) := by
  have some_dims {d : Mat K} (hd : d.dims = (u.size, w)) :
      ∀ c, some d = some c → c.dims = (u.size, w) := by
    rintro c ⟨⟩
    exact hd
  obtain ⟨i, hi, hil⟩ := partialLeft_fits hk
  obtain ⟨j, hj, hjr⟩ := partialRight_fits hk
  have left (c : Mat K) (hc : c.dims = (x.size, w)) :
      Delivers (Roomy K) (·.dims = (u.size, w)) (Mat.pushThrough i c) :=
    Mat.dims_pushThrough hil hc
  have right (c : Mat K) (hc : c.dims = (y.size, w)) :
      Delivers (Roomy K) (·.dims = (u.size, w)) (Mat.pushThrough j c) :=
    Mat.dims_pushThrough hjr hc
  cases s with
  | none =>
    cases t with
    | none => exact .some fun _ h => by cases h
    | some t =>
      simp only [pushForward, hj]
      exact (right t (ht t rfl)).bind fun d _ hd => .some (some_dims hd)
  | some s =>
    cases t with
    | none =>
      simp only [pushForward, hi]
      exact (left s (hs s rfl)).bind fun d _ hd => .some (some_dims hd)
    | some t =>
      simp only [pushForward, hi, hj]
      refine (left s (hs s rfl)).bind fun c _ hc => ?_
      refine (right t (ht t rfl)).bind fun d _ hd => ?_
      refine (Mat.dims_accumulate (hd.trans hc.symm)).bind fun e _ he => ?_
      exact .some (some_dims (he.trans hc))

variable [NatCast K]

namespace Expression

variable {e : Expression K} {s : Shape}

theorem Shaped.tangent (h : e.Shaped (shapes ρ) s)
    (hτ : Sized (fun n => (sizeUnder ρ n, w)) e.reads τ) :
    Delivers (Roomy K) (fun t => ∀ d, t = some d → d.dims = (s.size, w))
      (e.tangentUnder ρ τ) := by
  induction h with
  | literal v => exact .some fun _ h => by cases h
  | @read label n s hn =>
    obtain ⟨v, hv, -⟩ := Option.map_eq_some_iff.mp hn
    rw [tangentUnder, hv, ← sizeUnder_of_shapes hn]
    exact .some (hτ n (List.mem_singleton.mpr rfl))
  | @unary k a s ha ih =>
    refine (ih hτ).bind fun t _ ht => ?_
    cases t with
    | none => exact .some fun _ h => by cases h
    | some t =>
      refine ha.value.bind fun x _ hx => ?_
      have hfits := k.jacobian_fits x
      rw [Value.size, Value.size, k.shape_eval, hx] at hfits
      refine (Mat.dims_pushThrough hfits (ht t rfl)).bind fun d _ hd => .some ?_
      rintro _ ⟨⟩
      exact hd
  | @binary k l r s t u hl hr hk ihl ihr =>
    refine (ihl (hτ.mono fun n hn => List.mem_append_left _ hn)).bind fun i _ hi => ?_
    refine (ihr (hτ.mono fun n hn => List.mem_append_right _ hn)).bind fun j _ hj => ?_
    -- values are asked for only if an operand has a tangent
    have hvalues : Delivers (Roomy K) (fun o => ∀ d, o = some d → d.dims = (u.size, w))
        ((l.valueUnder ρ).bind fun x => (r.valueUnder ρ).bind fun y => k.pushForward x y i j) := by
      refine hl.value.bind fun x _ hx => hr.value.bind fun y _ hy => ?_
      subst hx hy
      exact BinaryKernel.dims_pushForward hk hi hj
    cases i with
    | some i => exact hvalues
    | none =>
      cases j with
      | some j => exact hvalues
      | none => exact .some fun _ h => by cases h
  | shared _ ih => exact ih hτ

end Expression

end Forward

section Backward

variable [NatCast K]

theorem dims_sideFlows {a : Expression K} {j : Jacobian K} {r c : Nat} (hj : j.Fits r c)
    (ha : ∀ d : Mat K, d.dims = (m, c) → Delivers (Roomy K) (Flowing ρ m) (a.flows ρ d))
    {d : Mat K} (hd : d.dims = (m, r)) :
    Delivers (Roomy K) (Flowing ρ m) (sideFlows a.isConstant (some j) d (a.flows ρ)) := by
  unfold sideFlows
  split
  · exact .some .nil
  · exact (Mat.dims_pullThrough hj hd).bind fun d' _ hd' => ha d' hd'

namespace Expression

variable {e : Expression K} {s : Shape}

theorem Shaped.flows (h : e.Shaped (shapes ρ) s) {d : Mat K} (hd : d.dims = (m, s.size)) :
    Delivers (Roomy K) (Flowing ρ m) (e.flows ρ d) := by
  induction h generalizing d with
  | literal v => exact .some .nil
  | @read label n s hn =>
    obtain ⟨v, hv, -⟩ := Option.map_eq_some_iff.mp hn
    rw [Expression.flows, hv]
    refine .some fun p hp => ?_
    obtain rfl := List.mem_singleton.mp hp
    rw [hd, sizeUnder_of_shapes hn]
  | @unary k a s ha ih =>
    rw [Expression.flows]
    split
    · exact .some .nil
    · refine ha.value.bind fun x _ hx => ?_
      have hfits := k.jacobian_fits x
      rw [Value.size, Value.size, k.shape_eval, hx] at hfits
      exact dims_sideFlows hfits (fun d hd => ih hd) hd
  | @binary k l r s t u hl hr hk ihl ihr =>
    rw [Expression.flows]
    split
    · exact .some .nil
    · refine hl.value.bind fun x _ hx => hr.value.bind fun y _ hy => ?_
      subst hx hy
      obtain ⟨i, hi, hil⟩ := BinaryKernel.partialLeft_fits hk
      obtain ⟨j, hj, hjr⟩ := BinaryKernel.partialRight_fits hk
      rw [hi, hj]
      refine (dims_sideFlows hil (fun d hd => ihl hd) hd).bind fun ps _ hps => ?_
      refine (dims_sideFlows hjr (fun d hd => ihr hd) hd).bind fun qs _ hqs => .some ?_
      exact fun p hp => (List.mem_append.mp hp).elim (hps p) (hqs p)
  | shared _ ih => exact ih hd

end Expression

end Backward

end GradientGraph
