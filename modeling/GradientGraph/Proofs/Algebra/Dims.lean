import GradientGraph.Differential

/-!
# Dimensions of derivatives

Which dimensions the operations on derivative matrices ask for, and which they give. The
scalars are not looked at, so this holds of rounded ones as well. An operation whose
operands fit can still fail for lack of room, if the scalars limit how large an array can
be; `Delivers` tells both what a result is like and when there is one.
-/

set_option autoImplicit false

namespace GradientGraph

/-- Whether a result is as `P` says if there is one, and there is one given the `room`. -/
structure Delivers {α : Type} (room : Prop) (P : α → Prop) (x : Option α) : Prop where
  sound : ∀ a, x = some a → P a
  total : room → ∃ a, x = some a

/-- Whether the scalars set no limit to arrays. -/
def Roomy (K : Type) [Capacity K] : Prop := ∀ dims, Capacity.fits K dims = true

theorem roomy_plain {K : Type} : @Roomy K plainCapacity := fun _ => rfl

namespace Delivers

variable {α β : Type} {room : Prop} {P Q : α → Prop} {R : β → Prop} {x : Option α}

theorem some {a : α} (h : P a) : Delivers room P (some a) where
  sound := by
    rintro _ ⟨⟩
    exact h
  total _ := ⟨a, rfl⟩

theorem none (h : ¬room) : Delivers room P Option.none where
  sound := by
    rintro _ ⟨⟩
  total hroom := absurd hroom h

theorem imp (h : Delivers room P x) (hPQ : ∀ a, x = .some a → P a → Q a) :
    Delivers room Q x :=
  ⟨fun a ha => hPQ a ha (h.sound a ha), h.total⟩

theorem of_room {more : Prop} (h : Delivers room P x) (hroom : more → room) :
    Delivers more P x := ⟨h.sound, fun hmore => h.total (hroom hmore)⟩

theorem bind {f : α → Option β} (h : Delivers room P x)
    (hf : ∀ a, x = .some a → P a → Delivers room R (f a)) : Delivers room R (x.bind f) where
  sound := by
    intro b hb
    obtain ⟨a, ha, hb⟩ := Option.bind_eq_some_iff.mp hb
    exact (hf a ha (h.sound a ha)).sound b hb
  total := by
    intro hroom
    obtain ⟨a, ha⟩ := h.total hroom
    obtain ⟨b, hb⟩ := (hf a ha (h.sound a ha)).total hroom
    exact ⟨b, by rw [ha, Option.bind_some, hb]⟩

theorem map {f : α → β} (h : Delivers room P x) (hf : ∀ a, x = .some a → P a → R (f a)) :
    Delivers room R (x.map f) := by
  rw [Option.map_eq_bind]
  exact h.bind fun a ha hP => .some (hf a ha hP)

theorem follow {S : α → β → Prop} {y : Option β} (h : Delivers room P x)
    (hxy : Option.Rel S x y) : Delivers room (fun b => ∃ a, P a ∧ S a b) y := by
  cases hxy with
  | none =>
    refine .none fun hroom => ?_
    obtain ⟨a, ha⟩ := h.total hroom
    cases ha
  | some hS => exact .some ⟨_, h.sound _ rfl, hS⟩

theorem foldlM {σ : Type} {f : σ → α → Option σ} (I : (done rest : List α) → σ → Prop)
    (step : ∀ done a rest s, I done (a :: rest) s →
      Delivers room (I (done ++ [a]) rest) (f s a))
    (done as : List α) {s : σ} (h : I done as s) :
    Delivers room (I (done ++ as) []) (as.foldlM f s) := by
  induction as generalizing done s with
  | nil => exact .some (by simpa using h)
  | cons a as ih =>
    rw [List.foldlM_cons]
    refine (step done a as s h).bind fun s' _ h' => ?_
    simpa using ih (done ++ [a]) h'

theorem ite {c : Prop} [Decidable c] {a : α} (hc : room → c) (h : P a) :
    Delivers room P (if c then .some a else Option.none) := by
  split
  · exact .some h
  · rename_i hno
    exact .none fun hroom => hno (hc hroom)

end Delivers

def Jacobian.Fits {K : Type} : Jacobian K → (rows cols : Nat) → Prop
  | .scale _, r, c => r = c
  | .diagonal p, r, c => p.size = r ∧ p.size = c
  | .column p, r, c => p.size = r ∧ c = 1
  | .row p, r, c => r = 1 ∧ p.size = c
  | .dense m, r, c => m.rows = r ∧ m.cols = c

namespace Mat

theorem commonLength_self (n : Nat) : commonLength n n = some n := by simp [commonLength]

theorem commonLength_one (n : Nat) : commonLength n 1 = some n := by
  by_cases h : n = 1 <;> simp [commonLength, h]

variable {K : Type} [Zero K] {room : Prop} {a b : Mat K} {p : Array K}

theorem dims_zeros [Capacity K] (r c : Nat) :
    Delivers (Roomy K) (·.dims = (r, c)) (zeros r c : Option (Mat K)) :=
  .ite (fun hroom => hroom _) rfl

theorem dims_identity [One K] [Capacity K] (n : Nat) :
    Delivers (Roomy K) (·.dims = (n, n)) (identity n : Option (Mat K)) :=
  .ite (fun hroom => hroom _) rfl

theorem dims_accumulate [Add K] (h : b.dims = a.dims) :
    Delivers room (·.dims = a.dims) (a.accumulate b) := by
  obtain ⟨hr, hc⟩ := Prod.ext_iff.mp h
  rw [accumulate, if_pos ⟨.inl hr, .inl hc⟩]
  exact .some rfl

theorem dims_mul [Add K] [MulAdd K] [Capacity K] (h : a.cols = b.rows) :
    Delivers (Roomy K) (·.dims = (a.rows, b.cols)) (a.mul b) := by
  unfold mul
  split
  · split <;> exact .some rfl
  · rename_i hno
    exact .none fun hroom => hno ⟨h, hroom _⟩

section Products

variable [Mul K]

theorem hadamard_eq {r c : Nat} (hr : commonLength a.rows b.rows = some r)
    (hc : commonLength a.cols b.cols = some c) :
    ∃ o, a.hadamard b = some (tabulate o r c fun i j =>
      a.entry (repeated a.rows i) (repeated a.cols j) *
        b.entry (repeated b.rows i) (repeated b.cols j)) := by
  simp only [hadamard, hr, hc]
  exact ⟨_, rfl⟩

theorem dims_hadamard_column (h : p.size = a.rows) :
    Delivers room (·.dims = a.dims) (a.hadamard (ofColumn p)) := by
  obtain ⟨o, ho⟩ := hadamard_eq (a := a) (b := ofColumn p)
    (by rw [ofColumn, rows_ofFn, h, commonLength_self]) (commonLength_one _)
  rw [ho]
  exact .some rfl

theorem dims_hadamard_row (h : p.size = a.cols) :
    Delivers room (·.dims = a.dims) (a.hadamard (ofRow p)) := by
  obtain ⟨o, ho⟩ := hadamard_eq (a := a) (b := ofRow p) (commonLength_one _)
    (by rw [ofRow, cols_tabulate, h, commonLength_self])
  rw [ho]
  exact .some rfl

variable [Add K] [Capacity K]

theorem dims_mulColumn (h : a.cols = p.size) :
    Delivers (Roomy K) (·.dims = (a.rows, 1)) (a.mulColumn p) :=
  .ite (fun hroom => ⟨h, hroom _⟩) rfl

variable [MulAdd K]

theorem dims_pushThrough {j : Jacobian K} {t : Mat K} {r c w : Nat} (h : j.Fits r c)
    (ht : t.dims = (c, w)) : Delivers (Roomy K) (·.dims = (r, w)) (pushThrough j t) := by
  obtain ⟨rfl : t.rows = c, rfl : t.cols = w⟩ := Prod.ext_iff.mp ht
  cases j with
  | scale c =>
    obtain rfl : r = t.rows := h
    exact .some rfl
  | diagonal p =>
    obtain ⟨rfl, hp⟩ := h
    rw [hp]
    exact dims_hadamard_column hp
  | column p =>
    obtain ⟨rfl, ht⟩ := h
    exact dims_mul (a := ofColumn p) ht.symm
  | row p =>
    obtain ⟨rfl, hp⟩ := h
    exact dims_mul (a := ofRow p) hp
  | dense m =>
    obtain ⟨rfl, hm⟩ := h
    exact dims_mul hm

theorem dims_pullThrough {j : Jacobian K} {g : Mat K} {m r c : Nat} (h : j.Fits r c)
    (hg : g.dims = (m, r)) : Delivers (Roomy K) (·.dims = (m, c)) (pullThrough g j) := by
  obtain ⟨rfl : g.rows = m, rfl : g.cols = r⟩ := Prod.ext_iff.mp hg
  cases j with
  | scale x =>
    obtain rfl : g.cols = c := h
    exact .some rfl
  | diagonal p =>
    obtain ⟨hp, rfl⟩ := h
    rw [hp]
    exact dims_hadamard_row hp
  | column p =>
    obtain ⟨hp, rfl⟩ := h
    exact dims_mulColumn hp.symm
  | row p =>
    obtain ⟨hg, rfl⟩ := h
    exact dims_mul (b := ofRow p) hg
  | dense m =>
    obtain ⟨hm, rfl⟩ := h
    exact dims_mul hm.symm

end Products

end Mat

end GradientGraph
