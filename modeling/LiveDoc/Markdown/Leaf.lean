import LiveDoc.Markdown.Glyph

/-!
# Lines that start or end a leaf

Which lines are thematic breaks, headings, underlines of headings, and the first and last lines of
fenced code. Each of them may be indented by at most three columns.
-/

namespace LiveDoc.Markdown

/-- The most columns that the first line of a block may be indented by. -/
def indentMax : Nat := 3

/-- Whether a line is a thematic break: three or more of the same marker, and spaces. -/
def isThematicBreak (gs : List Glyph) : Bool :=
  match (Glyph.cutSpaces indentMax gs).2 with
  | [] => false
  | g :: rest =>
    (g.char = '*' || g.char = '-' || g.char = '_') &&
      rest.all (fun h => h.char = g.char || h.isSpace) &&
      3 ≤ ((g :: rest).filter fun h => h.char = g.char).length

/-- Whether a line underlines a heading: a run of one marker. -/
def isUnderline (gs : List Glyph) : Bool :=
  match (Glyph.cutSpaces indentMax gs).2 with
  | [] => false
  | g :: rest =>
    (g.char = '=' || g.char = '-') && (rest.dropWhile fun h => h.char = g.char).all Glyph.isSpace

namespace Heading

/-- Drops hashes that stand on their own in front of the text of a heading, up to `fuel` glyphs. -/
def dropHashes : (fuel : Nat) → List Glyph → List Glyph
  | 0, _ => []
  | fuel + 1, gs =>
    match Glyph.dropSpaces gs with
    | [] => []
    | g :: rest =>
      if g.char = '#' then dropHashes fuel (rest.dropWhile (·.char = '#')) else g :: rest

/-- Drops the hashes on their own and the spaces at the end of the reversed text of a heading.
Hashes that no space separates from the text belong to it. -/
def dropClosing : (fuel : Nat) → List Glyph → List Glyph
  | 0, gs => gs
  | fuel + 1, gs =>
    let text := Glyph.dropSpaces gs
    match text with
    | [] => []
    | g :: _ =>
      if g.char = '#' then
        match text.dropWhile (·.char = '#') with
        | [] => []
        | h :: rest => if h.isSpace then dropClosing fuel (h :: rest) else text
      else text

/-- The text of a heading that is marked by hashes. -/
def text? (gs : List Glyph) : Option (List Glyph) :=
  let line := (Glyph.cutSpaces indentMax gs).2
  let level := (line.takeWhile (·.char = '#')).length
  let rest := line.dropWhile (·.char = '#')
  if 1 ≤ level && level ≤ 6 && (rest.head?.map Glyph.isSpace).getD true then
    let text := dropHashes (rest.length + 1) rest
    some (dropClosing (text.length + 1) text.reverse).reverse
  else none

end Heading

/-- The first line of fenced code: how far it is indented, its marker, and what it says behind the
marker. -/
structure FenceOpening where
  indent : Nat
  /-- The place of the marker. -/
  start : Nat
  marker : Char
  length : Nat
  info : List Glyph
  details : List Glyph
  deriving DecidableEq, Repr

namespace FenceOpening

/-- Fewest characters in a marker. -/
def lengthMin : Nat := 3

/-- Reads the first line of fenced code. What follows a marker of backticks holds none. -/
def read? (gs : List Glyph) : Option FenceOpening :=
  let (indent, line) := Glyph.cutSpaces indentMax gs
  match line with
  | [] => none
  | g :: _ =>
    let length := (line.takeWhile (·.char = g.char)).length
    let rest := Glyph.dropSpaces (line.dropWhile (·.char = g.char))
    if (g.char = '`' || g.char = '~') && lengthMin ≤ length &&
        (g.char ≠ '`' || rest.all (·.char ≠ '`')) then
      some ⟨Glyph.size indent line.head?, g.start, g.char, length,
        rest.takeWhile (!·.isSpace), Glyph.dropSpaces (rest.dropWhile (!·.isSpace))⟩
    else none

/-- Whether a line ends fenced code: a marker at least as long, and nothing behind it. -/
def closedBy (o : FenceOpening) (gs : List Glyph) : Bool :=
  let line := (Glyph.cutSpaces indentMax gs).2
  o.length ≤ (line.takeWhile (·.char = o.marker)).length &&
    (line.dropWhile (·.char = o.marker)).all Glyph.isSpace

end FenceOpening

end LiveDoc.Markdown
