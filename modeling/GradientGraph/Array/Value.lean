import GradientGraph.Array.Shape

/-!
# Values

The elements of a value stand in one array, a matrix column after column.
That order is the one in which derivatives number the elements, so
`entry v i` is the `i`-th coordinate of the flattened value.
-/

set_option autoImplicit false

namespace GradientGraph

structure Value (K : Type) where
  shape : Shape
  entries : Array K
  size_entries : entries.size = shape.size

namespace Value

variable {K : Type}

def size (v : Value K) : Nat := v.shape.size

def dims (v : Value K) : List Nat := v.shape.dims

def category (v : Value K) : Category := v.shape.category

def ofFn (s : Shape) (f : Nat → K) : Value K :=
  ⟨s, Array.ofFn (fun i : Fin s.size => f i), by simp⟩

def scalar (x : K) : Value K := ⟨.scalar, #[x], rfl⟩

def vector (xs : Array K) : Value K := ⟨.vector xs.size, xs, rfl⟩

def matrix (rows cols : Nat) (f : Nat → Nat → K) : Value K :=
  ofFn (.matrix rows cols) fun k => f (k % rows) (k / rows)

def map (f : K → K) (v : Value K) : Value K :=
  ⟨v.shape, v.entries.map f, by simp [v.size_entries]⟩

@[simp] theorem shape_ofFn (s : Shape) (f : Nat → K) : (ofFn s f).shape = s := rfl

@[simp] theorem shape_map (f : K → K) (v : Value K) : (v.map f).shape = v.shape := rfl

variable [Zero K]

def entry (v : Value K) (i : Nat) : K := v.entries.getD i 0

def cell (v : Value K) (rows i j : Nat) : K := v.entry (i + rows * j)

def zipWith (f : K → K → K) (a b : Value K) : Option (Value K) :=
  if a.shape = b.shape then some (ofFn a.shape fun i => f (a.entry i) (b.entry i)) else none

def default : Category → Value K
  | .scalar => scalar 0
  | .vector => vector #[]
  | .matrix => matrix 0 0 fun _ _ => 0

@[ext]
theorem ext_entry {a b : Value K} (hs : a.shape = b.shape)
    (h : ∀ i, i < a.size → a.entry i = b.entry i) : a = b := by
  obtain ⟨s, xs, hx⟩ := a
  obtain ⟨t, ys, hy⟩ := b
  obtain rfl : s = t := hs
  congr 1
  apply Array.ext (hx.trans hy.symm)
  intro i hi hj
  have := h i (by simpa [size, hx] using hi)
  simpa [entry, hi, hj] using this

theorem entry_ofFn (s : Shape) (f : Nat → K) {i : Nat} (h : i < s.size) :
    (ofFn s f).entry i = f i := by
  simp [ofFn, entry, h]

theorem entry_map (f : K → K) (v : Value K) {i : Nat} (h : i < v.size) :
    (v.map f).entry i = f (v.entry i) := by
  have h' : i < v.entries.size := by rw [v.size_entries]; exact h
  simp [map, entry, h']

end Value

end GradientGraph
