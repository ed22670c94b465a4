import LiveDoc.Shell.Builtin

/-!
# Fields

What becomes of an expanded word. `Bit`s are its characters, with how they came into it: `fields`
cuts them where an expansion brought separators, and `files` replaces a field that is a pattern by
the files it stands for.
-/

namespace LiveDoc.Shell

/-- How a character came into a word. -/
inductive Origin where
  | quoted
  | literal
  | expanded
  deriving DecidableEq, Repr

/-- A part of an expanded word. -/
inductive Bit where
  | char (origin : Origin) (c : Char)
  /-- The end of a parameter that is a field of its own. -/
  | cut
  /-- Quotes, which make a field even if nothing is in them. -/
  | mark
  deriving DecidableEq, Repr

namespace Field

/-- The characters of a text. -/
def bits (origin : Origin) (s : List Char) : List Bit := s.map (.char origin)

/-- The text of an expanded word that is not cut into fields. -/
def text (w : List Bit) : List Char :=
  w.flatMap fun
    | .char _ c => [c]
    | .cut => [' ']
    | .mark => []

/-- The pattern that an expanded word is. -/
def glyphs (w : List Bit) : List Glyph :=
  w.flatMap fun
    | .char origin c => [⟨origin = .quoted, c⟩]
    | .cut => [⟨true, ' '⟩]
    | .mark => []

/-- Where a cutter stands: before a field, in one, or behind white space that ended one. -/
inductive Place where
  | before
  | inside (field : List Glyph)
  | behind

/-- The field that a cutter is in. -/
def Place.field : Place → List (List Glyph)
  | .inside field => [field]
  | _ => []

/-- The characters of the field that a cutter is in. -/
def Place.content : Place → List Glyph
  | .inside field => field
  | _ => []

/-- Cuts a word into fields where an expansion brought a separator. -/
def fieldsFrom (ifs : List Char) : Place → List Bit → List (List Glyph)
  | place, [] => place.field
  | place, .mark :: rest => fieldsFrom ifs (.inside place.content) rest
  | place, .cut :: rest => place.field ++ fieldsFrom ifs .before rest
  | place, .char origin c :: rest =>
    let g : Glyph := ⟨origin = .quoted, c⟩
    if origin = .expanded && Builtin.isSpace ifs g then
      let next := match place with
        | .before => .before
        | _ => .behind
      place.field ++ fieldsFrom ifs next rest
    else if origin = .expanded && Builtin.separates ifs g then
      match place with
      | .behind => fieldsFrom ifs .before rest
      | .inside field => field :: fieldsFrom ifs .before rest
      | .before => [] :: fieldsFrom ifs .before rest
    else fieldsFrom ifs (.inside (place.content ++ [g])) rest

/-- The fields of an expanded word. -/
def fields (ifs : List Char) (w : List Bit) : List (List Glyph) := fieldsFrom ifs .before w

/-! ## Files -/

/-- The names in a directory, in ascending order. -/
def names (files : FileTree) (place : Location) : List String :=
  let below := files.entries.filterMap fun (other, _) =>
    if other.dropLast = place then other.getLast? else none
  below.mergeSort fun a b => decide (a ≤ b)

/-- Cuts a pattern at slashes. -/
def steps : List Glyph → List (List Glyph)
  | [] => [[]]
  | g :: rest =>
    match g.char, steps rest with
    | '/', found => [] :: found
    | _, first :: others => (g :: first) :: others
    | _, [] => [[g]]

/-- Whether a pattern stands for a name. A name that starts with a point has to be asked for. -/
def acceptsName (pattern : List Glyph) (name : List Char) : Bool :=
  (name.head? ≠ some '.' || (pattern.head?.map (·.char)) = some '.') &&
    Pattern.accepts (Pattern.ofGlyphs pattern) name

/-- The paths that a pattern stands for, from a place on. `shown` is the path so far. -/
def paths (files : FileTree) : Location → (shown : List Char) → List (List Glyph) →
    List (List Char)
  | _, shown, [] => [shown]
  | place, shown, step :: rest =>
    let slash := if rest.isEmpty then [] else ['/']
    if Pattern.isPattern step then
      (names files place).flatMap fun name =>
        let next := place ++ [name]
        if acceptsName step (charsOf name) && (rest.isEmpty || files.hasDirectory next) then
          paths files next (shown ++ charsOf name ++ slash) rest
        else []
    else
      let name := step.map (·.char)
      match files.follow place [stringOf name] with
      | some next =>
        if (files.entry? next).isSome then paths files next (shown ++ name ++ slash) rest else []
      | none => []

/-- The texts that a field stands for: the files that it is a pattern of, or its characters. -/
def texts (files : FileTree) (directory : Location) (field : List Glyph) : List (List Char) :=
  let start := if (field.head?.map (·.char)) = some '/' then [] else directory
  let found := if Pattern.isPattern field then paths files start [] (steps field) else []
  if found.isEmpty then [field.map (·.char)] else found

end Field

end LiveDoc.Shell
