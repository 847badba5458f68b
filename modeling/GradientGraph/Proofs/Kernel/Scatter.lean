import GradientGraph.Proofs.Algebra.KernelShape

/-!
# Jacobians written place by place

The Jacobian of a product can be filled by loops, which write what they read from an operand
over the zeros of a matrix. Where the operands fit, every read is inside the operand and every
write inside the matrix, and what the loops leave there is the Jacobian of the kernel.
-/

set_option autoImplicit false

namespace GradientGraph

variable {K : Type}

namespace Mat

theorem tabulate_congr (o : Order) {r c : Nat} {f g : Nat → Nat → K}
    (h : ∀ i < r, ∀ j < c, f i j = g i j) : tabulate o r c f = tabulate o r c g := by
  have hentries : (fun k : Fin (r * c) => f (o.position r c k).1 (o.position r c k).2) =
      fun k : Fin (r * c) => g (o.position r c k).1 (o.position r c k).2 := by
    funext k
    have hr : 0 < r := Nat.pos_of_lt_mul_right k.isLt
    have hc : 0 < c := Nat.pos_of_lt_mul_left k.isLt
    cases o with
    | byRow => exact h _ (Nat.div_lt_of_lt_mul (Nat.mul_comm r c ▸ k.isLt)) _ (Nat.mod_lt _ hc)
    | byColumn => exact h _ (Nat.mod_lt _ hr) _ (Nat.div_lt_of_lt_mul k.isLt)
  simp only [tabulate, hentries]

/-- The place that a loop writes to and the element it has read. There is no element where it
reads outside of an array. -/
structure Write (K : Type) where
  row : Nat
  col : Nat
  element : Option K

/-- Whether the write is inside a matrix of these dimensions, and writes an entry of `f`. -/
structure Write.Of (w : Write K) (rows cols : Nat) (f : Nat → Nat → K) : Prop where
  row : w.row < rows
  col : w.col < cols
  element : w.element = some (f w.row w.col)

/-- The writes of three loops, that over `a` the innermost and that over `c` the outermost. -/
def loops (t s r : Nat) (w : (a b c : Nat) → Write K) : List (Write K) :=
  (List.range t).flatMap fun c =>
    (List.range s).flatMap fun b => (List.range r).map fun a => w a b c

theorem mem_loops {t s r : Nat} {w : (a b c : Nat) → Write K} {e : Write K} :
    e ∈ loops t s r w ↔ ∃ c < t, ∃ b < s, ∃ a < r, w a b c = e := by
  simp [loops]

variable [Zero K]

def write? (m : Mat K) (w : Write K) : Option (Mat K) :=
  if w.row < m.rows ∧ w.col < m.cols then
    w.element.map fun x => tabulate m.order m.rows m.cols fun i j =>
      if i = w.row ∧ j = w.col then x else m.entry i j
  else none

/-- What the writes leave of a matrix of zeros. -/
def scatter? (rows cols : Nat) (ws : List (Write K)) : Option (Mat K) :=
  ws.foldlM write? (ofFn rows cols fun _ _ => 0)

section Scatter

variable {rows cols : Nat} {f : Nat → Nat → K}

theorem write?_ofFn {w : Write K} (hw : w.Of rows cols f) (g : Nat → Nat → K) :
    (ofFn rows cols g).write? w =
      some (ofFn rows cols fun i j => if i = w.row ∧ j = w.col then f i j else g i j) := by
  have hin : w.row < (ofFn rows cols g).rows ∧ w.col < (ofFn rows cols g).cols :=
    ⟨hw.row, hw.col⟩
  rw [write?, if_pos hin, hw.element, Option.map_some]
  congr 1
  apply tabulate_congr
  intro i hi j hj
  split
  · rename_i hij
    rw [hij.1, hij.2]
  · exact entry_ofFn _ _ g hi hj

theorem foldlM_write? {ws : List (Write K)} (hws : ∀ w ∈ ws, w.Of rows cols f)
    (g : Nat → Nat → K) :
    ws.foldlM write? (ofFn rows cols g) = some (ofFn rows cols fun i j =>
      if ∃ w ∈ ws, i = w.row ∧ j = w.col then f i j else g i j) := by
  induction ws generalizing g with
  | nil => simp
  | cons w ws ih =>
    rw [List.foldlM_cons, write?_ofFn (hws w List.mem_cons_self), Option.bind_eq_bind,
      Option.bind_some, ih fun e he => hws e (List.mem_cons_of_mem w he)]
    congr 2
    funext i j
    by_cases hlater : ∃ e ∈ ws, i = e.row ∧ j = e.col
    · have hany : ∃ e ∈ w :: ws, i = e.row ∧ j = e.col :=
        hlater.imp fun e he => ⟨List.mem_cons_of_mem w he.1, he.2⟩
      rw [if_pos hlater, if_pos hany]
    · simp [hlater]

/-- Writes of entries of `f`, among which are all that are not zero, leave `f`. -/
theorem scatter?_eq {ws : List (Write K)} (hws : ∀ w ∈ ws, w.Of rows cols f)
    (hall : ∀ i < rows, ∀ j < cols, f i j ≠ 0 → ∃ w ∈ ws, i = w.row ∧ j = w.col) :
    scatter? rows cols ws = some (ofFn rows cols f) := by
  rw [scatter?, foldlM_write? hws]
  congr 1
  apply tabulate_congr
  intro i hi j hj
  split
  · rfl
  · rename_i hnone
    by_contra hzero
    exact hnone (hall i hi j hj (Ne.symm hzero))

theorem scatter?_loops {t s r : Nat} {w : (a b c : Nat) → Write K}
    (hws : ∀ c < t, ∀ b < s, ∀ a < r, (w a b c).Of rows cols f)
    (hall : ∀ i < rows, ∀ j < cols, f i j ≠ 0 →
      ∃ c < t, ∃ b < s, ∃ a < r, i = (w a b c).row ∧ j = (w a b c).col) :
    scatter? rows cols (loops t s r w) = some (ofFn rows cols f) := by
  apply scatter?_eq
  · intro e he
    obtain ⟨c, hc, b, hb, a, ha, rfl⟩ := mem_loops.mp he
    exact hws c hc b hb a ha
  · intro i hi j hj hij
    obtain ⟨c, hc, b, hb, a, ha, hplace⟩ := hall i hi j hj hij
    exact ⟨w a b c, mem_loops.mpr ⟨c, hc, b, hb, a, ha, rfl⟩, hplace⟩

end Scatter

end Mat

theorem place_mod {m a : Nat} (ha : a < m) (b : Nat) : (a + m * b) % m = a := by
  rw [Nat.add_comm, block_mod ha]

theorem place_div {m a : Nat} (ha : a < m) (b : Nat) : (a + m * b) / m = b := by
  rw [Nat.add_comm, block_div ha]

variable [Zero K]

namespace Value

def read? (v : Value K) (i : Nat) : Option K := v.entries[i]?

def readCell? (v : Value K) (i j : Nat) : Option K :=
  match v.shape with
  | .matrix r c => if i < r ∧ j < c then some (v.cell r i j) else none
  | _ => none

theorem read?_eq (v : Value K) {i : Nat} (hi : i < v.size) : v.read? i = some (v.entry i) := by
  have hlt : i < v.entries.size := v.size_entries.symm ▸ hi
  simp [read?, entry, hlt]

theorem readCell?_eq {v : Value K} {r c i j : Nat} (hv : v.shape = .matrix r c) (hi : i < r)
    (hj : j < c) : v.readCell? i j = some (v.cell r i j) := by
  simp only [readCell?, hv, hi, hj, and_self, if_true]

end Value

namespace BinaryKernel

def IsProduct : BinaryKernel → Prop
  | .dot | .outer | .matmul => True
  | .cwise _ | .broadcast _ | .broadcastLeft _ => False

/-- The Jacobian of a product in its left operand, written place by place. -/
def scatterLeft? : BinaryKernel → Value K → Value K → Option (Jacobian K)
  | .dot, _, y => some (.row y.entries)
  | .outer, x, y =>
    (Mat.scatter? (x.size * y.size) x.size (Mat.loops 1 y.size x.size fun a b _ =>
      ⟨a + x.size * b, a, y.read? b⟩)).map .dense
  | .matmul, x, y =>
    match x.shape, y.shape with
    | .matrix r s, .vector n =>
      (Mat.scatter? r (r * s) (Mat.loops 1 n r fun a b _ =>
        ⟨a, a + r * b, y.read? b⟩)).map .dense
    | .matrix r s, .matrix _ t =>
      (Mat.scatter? (r * t) (r * s) (Mat.loops t s r fun a b c =>
        ⟨a + r * c, a + r * b, y.readCell? b c⟩)).map .dense
    | _, _ => none
  | .cwise _, _, _ | .broadcast _, _, _ | .broadcastLeft _, _, _ => none

def scatterRight? : BinaryKernel → Value K → Value K → Option (Jacobian K)
  | .dot, x, _ => some (.row x.entries)
  | .outer, x, y =>
    (Mat.scatter? (x.size * y.size) y.size (Mat.loops 1 y.size x.size fun a b _ =>
      ⟨a + x.size * b, b, x.read? a⟩)).map .dense
  | .matmul, x, y =>
    match x.shape, y.shape with
    | .matrix r s, .vector _ => some (.dense (.ofFn r s fun a b => x.cell r a b))
    | .matrix r s, .matrix _ t =>
      (Mat.scatter? (r * t) (s * t) (Mat.loops t s r fun a b c =>
        ⟨a + r * c, b + s * c, x.readCell? a b⟩)).map .dense
    | _, _ => none
  | .cwise _, _, _ | .broadcast _, _, _ | .broadcastLeft _, _, _ => none

variable [Calculus K] {k : BinaryKernel} {x y : Value K} {s : Shape}

/-- All that the loops read and write in filling the left Jacobian of a product is there. -/
theorem scatterLeft?_eq (hk : k.IsProduct) (h : k.Makes x.shape y.shape s) :
    k.scatterLeft? x y = k.partialLeft x y := by
  cases k with
  | cwise op => exact hk.elim
  | broadcast op => exact hk.elim
  | broadcastLeft op => exact hk.elim
  | dot =>
    obtain ⟨n, hx, hy, rfl⟩ := h
    simp only [scatterLeft?, partialLeft, hx, hy]
  | outer =>
    obtain ⟨m, n, hx, hy, rfl⟩ := h
    have hm : x.size = m := congrArg Shape.size hx
    have hn : y.size = n := congrArg Shape.size hy
    simp only [scatterLeft?, partialLeft, hx, hy, hm, hn]
    -- row `b * m + a` of the Jacobian is written in column `a`
    rw [Mat.scatter?_loops (f := fun i a => if i % m = a then y.entry (i / m) else 0)]
    · rfl
    · intro c _ b hb a ha
      refine ⟨block_lt ha hb, ha, ?_⟩
      rw [y.read?_eq (hn ▸ hb), if_pos (place_mod ha b), place_div ha b]
    · intro i hi j hj hij
      obtain rfl : i % m = j := by_contra fun hne => hij (if_neg hne)
      exact ⟨0, Nat.one_pos, i / m, Nat.div_lt_of_lt_mul hi, i % m, hj,
        (Nat.mod_add_div i m).symm, rfl⟩
  | matmul =>
    obtain ⟨r, n, hx, ⟨hy, rfl⟩ | ⟨t, hy, rfl⟩⟩ := h
    · have hn : y.size = n := congrArg Shape.size hy
      simp only [scatterLeft?, partialLeft, hx, hy, Nat.le_refl, or_true, if_true]
      rw [Mat.scatter?_loops (f := fun a j => if j % r = a then y.entry (j / r) else 0)]
      · rfl
      · intro c _ b hb a ha
        refine ⟨ha, block_lt ha hb, ?_⟩
        rw [y.read?_eq (hn ▸ hb), if_pos (place_mod ha b), place_div ha b]
      · intro i hi j hj hij
        obtain rfl : j % r = i := by_contra fun hne => hij (if_neg hne)
        exact ⟨0, Nat.one_pos, j / r, Nat.div_lt_of_lt_mul hj, j % r, hi, rfl,
          (Nat.mod_add_div j r).symm⟩
    · simp only [scatterLeft?, partialLeft, hx, hy, Nat.le_refl, or_true, if_true]
      rw [Mat.scatter?_loops
        (f := fun i j => if i % r = j % r then y.cell n (j / r) (i / r) else 0)]
      · rfl
      · intro c hc b hb a ha
        refine ⟨block_lt ha hc, block_lt ha hb, ?_⟩
        rw [Value.readCell?_eq hy hb hc, place_mod ha c, place_mod ha b, if_pos rfl,
          place_div ha c, place_div ha b]
      · intro i hi j hj hij
        have hrow : i % r = j % r := by_contra fun hne => hij (if_neg hne)
        refine ⟨i / r, Nat.div_lt_of_lt_mul hi, j / r, Nat.div_lt_of_lt_mul hj, i % r,
          Nat.mod_lt i (Nat.pos_of_lt_mul_right hi), (Nat.mod_add_div i r).symm, ?_⟩
        rw [hrow, Nat.mod_add_div]

theorem scatterRight?_eq (hk : k.IsProduct) (h : k.Makes x.shape y.shape s) :
    k.scatterRight? x y = k.partialRight x y := by
  cases k with
  | cwise op => exact hk.elim
  | broadcast op => exact hk.elim
  | broadcastLeft op => exact hk.elim
  | dot =>
    obtain ⟨n, hx, hy, rfl⟩ := h
    simp only [scatterRight?, partialRight, hx, hy]
  | outer =>
    obtain ⟨m, n, hx, hy, rfl⟩ := h
    have hm : x.size = m := congrArg Shape.size hx
    have hn : y.size = n := congrArg Shape.size hy
    simp only [scatterRight?, partialRight, hx, hy, hm, hn]
    rw [Mat.scatter?_loops (f := fun i b => if i / m = b then x.entry (i % m) else 0)]
    · rfl
    · intro c _ b hb a ha
      refine ⟨block_lt ha hb, hb, ?_⟩
      rw [x.read?_eq (hm ▸ ha), if_pos (place_div ha b), place_mod ha b]
    · intro i hi j hj hij
      obtain rfl : i / m = j := by_contra fun hne => hij (if_neg hne)
      exact ⟨0, Nat.one_pos, i / m, hj, i % m, Nat.mod_lt i (Nat.pos_of_lt_mul_right hi),
        (Nat.mod_add_div i m).symm, rfl⟩
  | matmul =>
    obtain ⟨r, n, hx, ⟨hy, rfl⟩ | ⟨t, hy, rfl⟩⟩ := h
    · simp only [scatterRight?, partialRight, hx, hy]
    · simp only [scatterRight?, partialRight, hx, hy]
      rw [Mat.scatter?_loops
        (f := fun i j => if i / r = j / n then x.cell r (i % r) (j % n) else 0)]
      · rfl
      · intro c hc b hb a ha
        refine ⟨block_lt ha hc, block_lt hb hc, ?_⟩
        rw [Value.readCell?_eq hx ha hb, place_div ha c, place_div hb c, if_pos rfl,
          place_mod ha c, place_mod hb c]
      · intro i hi j hj hij
        have hcol : i / r = j / n := by_contra fun hne => hij (if_neg hne)
        refine ⟨i / r, Nat.div_lt_of_lt_mul hi, j % n,
          Nat.mod_lt j (Nat.pos_of_lt_mul_right hj), i % r,
          Nat.mod_lt i (Nat.pos_of_lt_mul_right hi), (Nat.mod_add_div i r).symm, ?_⟩
        rw [hcol, Nat.mod_add_div]

end BinaryKernel

end GradientGraph
