import LiveDoc.Markdown.Glyph
import LiveDoc.Text.Capital

/-!
# Labels and targets

The parts that links are made of. A *label* stands in brackets. A *target* stands behind it in
parentheses, or behind a label and a colon in a *definition*: a destination, and a title if there is
one. Every reader gets the glyphs from where a part may start, and gives what follows the part.

Two labels name the same target when they agree up to case and to the length of blanks
(`Label.key`).
-/

namespace LiveDoc.Markdown

/-- Skips spaces around at most one line end, and at least one of them. -/
def skipGap? (gs : List Glyph) : Option (List Glyph) :=
  match gs.dropWhile Glyph.isSpace with
  | g :: rest =>
    if g.isLineEnd then some (Glyph.dropSpaces rest)
    else if (gs.head?.map Glyph.isSpace).getD false then some (g :: rest)
    else none
  | [] => if gs.isEmpty then none else some []

/-- Skips spaces around at most one line end, if there are any. -/
def skipGap (gs : List Glyph) : List Glyph := (skipGap? gs).getD gs

namespace Label

/-- The longest label, in bytes. -/
def sizeMax : Nat := 999

/-- Reads a label behind its bracket, which was `size` bytes so far. A label must hold something
other than blanks, and no bracket without a backslash before it. -/
def readFrom (size : Nat) (seen escaped : Bool) : List Glyph → Option (List Glyph × List Glyph)
  | [] => none
  | g :: rest =>
    let more (size : Nat) (seen escaped : Bool) : Option (List Glyph × List Glyph) :=
      (readFrom size seen escaped rest).map fun (label, rest) => (g :: label, rest)
    if sizeMax < size then none
    else if escaped && (g.char = '[' || g.char = '\\' || g.char = ']') then
      more (size + 1) seen false
    else if g.char = '[' then none
    else if g.char = ']' then (if seen then some ([], rest) else none)
    else if g.isLineEnd then more size seen false
    else more (size + g.char.utf8Size) (seen || !g.isSpace) (g.char = '\\')

/-- Reads a label in brackets: what it holds, and what follows it. -/
def read? : List Glyph → Option (List Glyph × List Glyph)
  | g :: rest => if g.char = '[' then readFrom 0 false false rest else none
  | [] => none

/-- Whether labels do not tell a character from a space. -/
def isBlank (c : Char) : Bool := c = ' ' || c = '\t' || c = '\n' || c = '\r'

/-- Writes a single space for every run of blanks between other characters. -/
def collapse (pending started : Bool) : List Char → List Char
  | [] => []
  | c :: rest =>
    if isBlank c then collapse true started rest
    else if pending && started then ' ' :: c :: collapse false true rest
    else c :: collapse false true rest

/-- What the labels of the same target agree in. -/
def key (label : List Char) : List Char := Text.capitals (collapse false false label)

end Label

namespace Target

/-- Whether a character can end a destination: controls and the space do, but not NUL. -/
def isControlOrSpace (c : Char) : Bool := (1 ≤ c.toNat && c.toNat ≤ 32) || c.toNat == 127

/-- Reads a destination behind `<`, up to `>` on the same line. -/
def enclosed? (escaped : Bool) : List Glyph → Option (List Glyph)
  | [] => none
  | g :: rest =>
    if escaped && (g.char = '<' || g.char = '>' || g.char = '\\') then enclosed? false rest
    else if g.isLineEnd || g.char = '<' then none
    else if g.char = '>' then some rest
    else enclosed? (g.char = '\\') rest

/-- Reads a destination without brackets. Parentheses in it are balanced, and nested at most as
deep as the limit says. -/
def bare? (limit : Option Nat) (depth : Nat) (escaped : Bool) : List Glyph → Option (List Glyph)
  | [] => if depth = 0 then some [] else none
  | g :: rest =>
    if escaped && (g.char = '(' || g.char = ')' || g.char = '\\') then bare? limit depth false rest
    else if depth = 0 && (g.isSpace || g.isLineEnd || g.char = ')') then some (g :: rest)
    else if g.char = '(' && limit.all (fun max => depth < max) then
      bare? limit (depth + 1) false rest
    else if g.char = ')' then bare? limit (depth - 1) false rest
    else if g.char = '(' || isControlOrSpace g.char then none
    else bare? limit depth (g.char = '\\') rest

/-- Reads a destination. -/
def destination? (limit : Option Nat) : List Glyph → Option (List Glyph)
  | [] => none
  | g :: rest =>
    if g.char = '<' then enclosed? false rest
    else if isControlOrSpace g.char || g.char = ')' then none
    else bare? limit 0 false (g :: rest)

/-- Reads a title up to the character that closes it. -/
def titleFrom? (close : Char) (escaped : Bool) : List Glyph → Option (List Glyph)
  | [] => none
  | g :: rest =>
    let special := g.char = '"' || g.char = '\'' || g.char = '(' || g.char = ')' || g.char = '\\'
    if escaped && special then titleFrom? close false rest
    else if g.char = close then some rest
    else titleFrom? close (g.char = '\\') rest

/-- Reads a title in quotes or parentheses. -/
def title? : List Glyph → Option (List Glyph)
  | [] => none
  | g :: rest =>
    if g.char = '"' || g.char = '\'' then titleFrom? g.char false rest
    else if g.char = '(' then titleFrom? ')' false rest
    else none

/-- Skips a given character. -/
def skip? (c : Char) : List Glyph → Option (List Glyph)
  | g :: rest => if g.char = c then some rest else none
  | [] => none

/-- How deep parentheses in the destination of a link may be nested. -/
def depthMax : Nat := 32

/-- Reads a target in parentheses behind a label. Both its parts may be missing. -/
def resource? (gs : List Glyph) : Option (List Glyph) :=
  (skip? '(' gs).bind fun rest =>
    let rest := skipGap rest
    (skip? ')' rest).or <|
      (destination? (some depthMax) rest).bind fun rest =>
        match skipGap? rest with
        | none => skip? ')' rest
        | some rest =>
          let titled := match rest with
            | g :: _ => g.char = '"' || g.char = '\'' || g.char = '('
            | [] => false
          if titled then (title? rest).bind fun rest => skip? ')' (skipGap rest)
          else skip? ')' rest

/-- Whether a line is over. -/
def atLineEnd : List Glyph → Bool
  | [] => true
  | g :: _ => g.isLineEnd

/-- Reads a title behind the destination of a definition, up to the end of its line. -/
def definitionTitle? (gs : List Glyph) : Option (List Glyph) :=
  (skipGap? gs).bind fun rest => (title? rest).bind fun rest =>
    let rest := Glyph.dropSpaces rest
    if atLineEnd rest then some rest else none

/-- Reads a definition up to the end of its last line: its label, and what follows. -/
def definition? (gs : List Glyph) : Option (List Glyph × List Glyph) :=
  (Label.read? (Glyph.dropSpaces gs)).bind fun (label, rest) =>
    (skip? ':' rest).bind fun rest =>
      (destination? none (skipGap rest)).bind fun rest =>
        match definitionTitle? rest with
        | some rest => some (label, rest)
        | none =>
          let rest := Glyph.dropSpaces rest
          if atLineEnd rest then some (label, rest) else none

end Target

end LiveDoc.Markdown
