/-!
# Tables by name

A table lists its entries in the order in which their names came in. A name
stands at most once in a table built by `put` and `alter`.
-/

set_option autoImplicit false

namespace GradientGraph

abbrev Table (α : Type) := List (String × α)

namespace Table

variable {α : Type}

def find? (t : Table α) (name : String) : Option α := t.lookup name

def has (t : Table α) (name : String) : Bool := (t.find? name).isSome

def alter (name : String) (f : Option α → α) : Table α → Table α
  | [] => [(name, f none)]
  | (k, x) :: t => if name = k then (k, f (some x)) :: t else (k, x) :: alter name f t

def put (t : Table α) (name : String) (x : α) : Table α := alter name (fun _ => x) t

def erase (t : Table α) (name : String) : Table α := t.filter (·.1 ≠ name)

def names (t : Table α) : List String := t.map (·.1)

theorem find?_cons (j k : String) (x : α) (t : Table α) :
    find? ((j, x) :: t) k = if k = j then some x else t.find? k := by
  by_cases h : k = j
  · simp [find?, h]
  · have hb : (k == j) = false := by simpa using h
    simp [find?, List.lookup_cons, hb, h]

theorem find?_alter (t : Table α) (name k : String) (f : Option α → α) :
    (alter name f t).find? k = if k = name then some (f (t.find? name)) else t.find? k := by
  induction t with
  | nil => exact find?_cons name k _ []
  | cons e t ih =>
    obtain ⟨j, x⟩ := e
    by_cases hj : name = j
    · subst hj
      by_cases hk : k = name <;> simp [alter, find?_cons, hk]
    · by_cases hk : k = j
      · subst hk
        simp [alter, find?_cons, hj, Ne.symm hj]
      · simp [alter, find?_cons, hj, hk, ih]

theorem find?_put (t : Table α) (name k : String) (x : α) :
    (t.put name x).find? k = if k = name then some x else t.find? k :=
  find?_alter t name k _

theorem mem_of_find? {t : Table α} {name : String} {x : α} (h : t.find? name = some x) :
    (name, x) ∈ t := by
  induction t with
  | nil => simp [find?] at h
  | cons e t ih =>
    obtain ⟨j, y⟩ := e
    rw [find?_cons] at h
    split at h
    · simp_all
    · exact List.mem_cons_of_mem _ (ih h)

end Table

end GradientGraph
