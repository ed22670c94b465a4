import LiveDoc.Toml.Value

/-!
# TOML tables

A table is put together from several places of a file. What may be added later depends on how a
table came to be: a header defines a table once, and a table in braces is complete as it is.
-/

namespace LiveDoc.Toml

/-- How a table came to be. -/
inductive Origin where
  /-- On the way to another table. -/
  | passed
  /-- By a header of its own. -/
  | header
  /-- By a key with points. -/
  | dotted
  deriving DecidableEq, Repr

/-- What a key stands for while a file is read. -/
inductive Entry where
  | value (v : Value)
  | table (origin : Origin) (entries : List (String × Entry))
  /-- Tables under the same header in double brackets, the last one first. -/
  | tables (elements : List (List (String × Entry)))

/-- A table while a file is read. -/
abbrev Entries := List (String × Entry)

namespace Entries

/-- Changes the table that the names of a header lead to. Among tables of the same name, the last
one is meant. -/
def within (f : Entries → Option Entries) : List String → Entries → Option Entries
  | [], es => f es
  | key :: path, es =>
    match Store.get? key es with
    | none => (within f path []).map fun sub => Store.put key (.table .passed sub) es
    | some (.table origin sub) =>
      (within f path sub).map fun sub => Store.put key (.table origin sub) es
    | some (.tables (last :: earlier)) =>
      (within f path last).map fun last => Store.put key (.tables (last :: earlier)) es
    | some _ => none

/-- Starts the table of a header. It may have been passed before, but not defined. -/
def define (key : String) (es : Entries) : Option Entries :=
  match Store.get? key es with
  | none => some (Store.put key (.table .header []) es)
  | some (.table .passed sub) => some (Store.put key (.table .header sub) es)
  | some _ => none

/-- Starts one more table of a header in double brackets. -/
def extend (key : String) (es : Entries) : Option Entries :=
  match Store.get? key es with
  | none => some (Store.put key (.tables [[]]) es)
  | some (.tables elements) => some (Store.put key (.tables ([] :: elements)) es)
  | some _ => none

/-- Adds a value. Keys with points lead through tables that no header defined. -/
def add (v : Value) : List String → Entries → Option Entries
  | [], _ => none
  | [key], es =>
    match Store.get? key es with
    | none => some (Store.put key (.value v) es)
    | some _ => none
  | key :: path, es =>
    match Store.get? key es with
    | none => (add v path []).map fun sub => Store.put key (.table .dotted sub) es
    | some (.table .header _) => none
    | some (.table origin sub) =>
      (add v path sub).map fun sub => Store.put key (.table origin sub) es
    | some _ => none

end Entries

mutual

/-- The value of an entry. -/
def Entry.toValue : Entry → Value
  | .value v => v
  | .table _ es => .table (valuesOf es)
  | .tables elements => .array (elementsOf elements).reverse

/-- The values of entries. -/
def valuesOf : List (String × Entry) → List (String × Value)
  | [] => []
  | (key, e) :: rest => (key, e.toValue) :: valuesOf rest

/-- The values of tables. -/
def elementsOf : List (List (String × Entry)) → List Value
  | [] => []
  | es :: rest => .table (valuesOf es) :: elementsOf rest

end

end LiveDoc.Toml
