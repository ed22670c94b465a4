/-!
# Stores

A `Store` maps names to values and remembers the order in which names came. `put` replaces the
value of a name that is there already.

* `get?_put_self` and `get?_put_of_ne` say what a lookup finds after `put`.
-/

namespace LiveDoc

/-- A map from names to values. -/
abbrev Store (α : Type) := List (String × α)

namespace Store

variable {α : Type}

/-- The value of a name. -/
def get? (name : String) : Store α → Option α
  | [] => none
  | (n, v) :: rest => if n = name then some v else get? name rest

/-- The store with a name bound to a value. -/
def put (name : String) (value : α) : Store α → Store α
  | [] => [(name, value)]
  | (n, v) :: rest =>
    if n = name then (name, value) :: rest else (n, v) :: put name value rest

/-- The names in a store. -/
def names (s : Store α) : List String := s.map (·.1)

@[simp] theorem get?_put_self (name : String) (value : α) (s : Store α) :
    get? name (put name value s) = some value := by
  induction s with
  | nil => simp [put, get?]
  | cons e rest ih =>
    obtain ⟨n, v⟩ := e
    by_cases h : n = name <;> simp [put, get?, h, ih]

/-- Putting a value under a name leaves the other names alone. -/
theorem get?_put_of_ne {name other : String} (h : name ≠ other) (value : α) (s : Store α) :
    get? other (put name value s) = get? other s := by
  induction s with
  | nil => simp [put, get?, h]
  | cons e rest ih =>
    obtain ⟨n, v⟩ := e
    by_cases hn : n = name
    · simp [put, get?, hn, h]
    · simp [put, get?, hn, ih]

/-- Names in ascending order of their code points. -/
def sortedNames (s : Store α) : List String := s.names.mergeSort fun a b => decide (a ≤ b)

end Store

end LiveDoc
