import GradientGraph.Array.Capacity
import GradientGraph.Scalar.Total

/-!
# Derivative matrices

A dense matrix with its dimensions. `entry` is total: outside the matrix it
reads zero. Entry-wise operations between two matrices follow the rule of
broadcasting, by which a dimension of length one is repeated as often as the
other operand asks.

A matrix lists its entries row by row or column by column. The order says
nothing about the matrix as a linear map: `entry` reads both alike. It decides
which sums run over neighbouring entries, and with that how those sums are
taken, so each operation states the order of its result.
-/

set_option autoImplicit false

namespace GradientGraph

inductive Order where
  | byRow
  | byColumn
deriving DecidableEq, Repr

namespace Order

def place (o : Order) (rows cols i j : Nat) : Nat :=
  match o with
  | .byRow => i * cols + j
  | .byColumn => j * rows + i

def position (o : Order) (rows cols k : Nat) : Nat × Nat :=
  match o with
  | .byRow => (k / cols, k % cols)
  | .byColumn => (k % rows, k / rows)

theorem position_place (o : Order) {r c i j : Nat} (hi : i < r) (hj : j < c) :
    o.place r c i j < r * c ∧ o.position r c (o.place r c i j) = (i, j) := by
  cases o with
  | byRow =>
    have hk : i * c + j < r * c := by
      calc i * c + j < i * c + c := by omega
        _ = (i + 1) * c := by rw [Nat.succ_mul]
        _ ≤ r * c := Nat.mul_le_mul_right c hi
    have hd : (i * c + j) / c = i := by
      rw [Nat.mul_comm, Nat.mul_add_div (by omega), Nat.div_eq_of_lt hj, Nat.add_zero]
    have hm : (i * c + j) % c = j := by
      rw [Nat.mul_comm, Nat.mul_add_mod, Nat.mod_eq_of_lt hj]
    exact ⟨hk, by simp [Order.place, Order.position, hd, hm]⟩
  | byColumn =>
    have hk : j * r + i < r * c := by
      calc j * r + i < j * r + r := by omega
        _ = (j + 1) * r := by rw [Nat.succ_mul]
        _ ≤ c * r := Nat.mul_le_mul_right r hj
        _ = r * c := Nat.mul_comm c r
    have hd : (j * r + i) / r = j := by
      rw [Nat.mul_comm, Nat.mul_add_div (by omega), Nat.div_eq_of_lt hi, Nat.add_zero]
    have hm : (j * r + i) % r = i := by
      rw [Nat.mul_comm, Nat.mul_add_mod, Nat.mod_eq_of_lt hi]
    exact ⟨hk, by simp [Order.place, Order.position, hd, hm]⟩

end Order

structure Mat (K : Type) where
  rows : Nat
  cols : Nat
  order : Order
  entries : Array K
  size_entries : entries.size = rows * cols

namespace Mat

variable {K : Type}

def tabulate (o : Order) (rows cols : Nat) (f : Nat → Nat → K) : Mat K where
  rows := rows
  cols := cols
  order := o
  entries := Array.ofFn fun k : Fin (rows * cols) =>
    let p := o.position rows cols k
    f p.1 p.2
  size_entries := by simp

def ofFn (rows cols : Nat) (f : Nat → Nat → K) : Mat K := tabulate .byRow rows cols f

def dims (m : Mat K) : Nat × Nat := (m.rows, m.cols)

def columnStep (m : Mat K) : Nat :=
  if m.rows = 0 ∨ m.cols = 0 then 0
  else match m.order with
    | .byRow => m.cols
    | .byColumn => 1

def rowsTogether (m : Mat K) : Bool := m.order = .byRow ∨ m.rows ≤ 1

@[simp] theorem rows_tabulate (o : Order) (r c : Nat) (f : Nat → Nat → K) :
    (tabulate o r c f).rows = r := rfl

@[simp] theorem cols_tabulate (o : Order) (r c : Nat) (f : Nat → Nat → K) :
    (tabulate o r c f).cols = c := rfl

@[simp] theorem rows_ofFn (r c : Nat) (f : Nat → Nat → K) : (ofFn r c f).rows = r := rfl

@[simp] theorem cols_ofFn (r c : Nat) (f : Nat → Nat → K) : (ofFn r c f).cols = c := rfl

variable [Zero K]

def entry (m : Mat K) (i j : Nat) : K :=
  if i < m.rows ∧ j < m.cols then m.entries.getD (m.order.place m.rows m.cols i j) 0 else 0

def map (f : K → K) (m : Mat K) : Mat K :=
  tabulate m.order m.rows m.cols fun i j => f (m.entry i j)

def zeros [Capacity K] (rows cols : Nat) : Option (Mat K) :=
  if Capacity.fits K [rows, cols] then some (ofFn rows cols fun _ _ => 0) else none

def identity [One K] [Capacity K] (n : Nat) : Option (Mat K) :=
  if Capacity.fits K [n, n] then some (ofFn n n fun i j => if i = j then 1 else 0) else none

def ofColumn (p : Array K) : Mat K := ofFn p.size 1 fun i _ => p.getD i 0

def ofRow (p : Array K) : Mat K := tabulate .byColumn 1 p.size fun _ j => p.getD j 0

def rowSupports [MulAdd K] (m : Mat K) : Array (List Nat) :=
  Array.ofFn fun i : Fin m.rows => support (m.entry i) m.cols []

def columnSupports [MulAdd K] (m : Mat K) : Array (List Nat) :=
  Array.ofFn fun j : Fin m.cols => support (fun i => m.entry i j) m.rows []

def isFinite [MulAdd K] (m : Mat K) : Bool := m.entries.all MulAdd.isFinite

/-- The matrix product, defined when the inner dimensions agree and it fits.
Between finite matrices the terms with a zero factor are left out. The product
is listed by columns if in both factors the entries of a column are neighbours. -/
def mul [Add K] [MulAdd K] [Capacity K] (a b : Mat K) : Option (Mat K) :=
  if a.cols = b.rows ∧ Capacity.fits K [a.rows, b.cols] then
    if a.rows = 0 ∨ b.cols = 0 then some (ofFn a.rows b.cols fun _ _ => 0)
    else
      let all := List.range a.cols
      let finite := a.isFinite && b.isFinite
      let rows := if finite then a.rowSupports else Array.replicate a.rows all
      let columns := if finite then b.columnSupports else Array.replicate b.cols all
      some (tabulate (if a.columnStep = 1 ∧ b.columnStep = 1 then .byColumn else .byRow)
        a.rows b.cols fun i j =>
          productTotal (a.entry i) (fun k => b.entry k j)
            (commonIndices (rows.getD i all) (columns.getD j all)))
  else none

/-- The matrix times a column, as a column. Rows whose entries are neighbours
are summed in lanes. -/
def mulColumn [Add K] [Mul K] [Capacity K] (a : Mat K) (p : Array K) : Option (Mat K) :=
  if a.cols = p.size ∧ Capacity.fits K [a.rows] then
    some (ofFn a.rows 1 fun i _ =>
      if a.rowsTogether then laneTotal a.cols fun k => a.entry i k * p.getD k 0
      else total a.cols fun k => a.entry i k * p.getD k 0)
  else none

/-- Where coordinate `i` of a repeated dimension reads an operand of length `n`. -/
def repeated (n i : Nat) : Nat := if n = 1 then 0 else i

def commonLength (m n : Nat) : Option Nat :=
  if m = n then some m else if m = 1 then some n else if n = 1 then some m else none

/-- How much an operand speaks for listing an entry-wise result of `rows` by
`cols` entries by rows, or against it if negative. An operand of the full
size counts double; nothing that stands in a single row or column has a say. -/
def preference (m : Mat K) (rows cols : Nat) : Int :=
  if m.rows = rows ∧ m.cols = cols then
    if rows ≤ 1 ∨ cols ≤ 1 then 0
    else match m.order with
      | .byRow => 2
      | .byColumn => -2
  else if m.rows = rows ∧ 1 < rows then -1
  else if m.cols = cols ∧ 1 < cols then 1
  else 0

def hadamard [Mul K] (a b : Mat K) : Option (Mat K) := do
  let r ← commonLength a.rows b.rows
  let c ← commonLength a.cols b.cols
  let o := if a.preference r c + b.preference r c < 0 then Order.byColumn else .byRow
  return tabulate o r c fun i j =>
    a.entry (repeated a.rows i) (repeated a.cols j) *
      b.entry (repeated b.rows i) (repeated b.cols j)

/-- Adds `b` to `a`, repeating `b` alone to the dimensions of `a`. -/
def accumulate [Add K] (a b : Mat K) : Option (Mat K) :=
  if (b.rows = a.rows ∨ b.rows = 1) ∧ (b.cols = a.cols ∨ b.cols = 1) then
    some (tabulate a.order a.rows a.cols fun i j =>
      a.entry i j +
        b.entry (if b.rows = a.rows then i else 0) (if b.cols = a.cols then j else 0))
  else none

theorem entry_tabulate (o : Order) (r c : Nat) (f : Nat → Nat → K) {i j : Nat}
    (hi : i < r) (hj : j < c) : (tabulate o r c f).entry i j = f i j := by
  obtain ⟨hk, hp⟩ := o.position_place hi hj
  simp [tabulate, entry, hi, hj, hk, hp]

theorem entry_ofFn (r c : Nat) (f : Nat → Nat → K) {i j : Nat} (hi : i < r) (hj : j < c) :
    (ofFn r c f).entry i j = f i j := entry_tabulate .byRow r c f hi hj

end Mat

end GradientGraph
