import LiveDoc.Markdown.Leaf
import LiveDoc.Markdown.Target

/-!
# Containers

Block quotes, list items and footnote definitions hold other blocks. A line belongs to a container
when it starts with what the container asks for: `Container.continue?` takes that off, and
`Container.open?` takes off the start of a new container.
-/

namespace LiveDoc.Markdown

/-- A container that is open. -/
inductive Container where
  | quote
  /-- An item. `marker` tells the items of one list from those of another, `width` is how far its
  lines are indented, and `bare` tells whether all its lines so far are blank. -/
  | item (marker : Char) (width : Nat) (bare : Bool)
  /-- The definition of a footnote with a label. -/
  | footnote (label : List Char)
  deriving DecidableEq, Repr

namespace Container

/-- Takes the marker of a block quote off a line, with one space behind it. -/
def takeQuote? (gs : List Glyph) : Option (List Glyph) :=
  match (Glyph.cutSpaces indentMax gs).2 with
  | g :: rest => if g.char = '>' then some (Glyph.cutSpaces 1 rest).2 else none
  | [] => none

/-- Takes exactly `width` columns of spaces off a line. -/
def takeIndent? (width : Nat) (gs : List Glyph) : Option (List Glyph) :=
  let (cut, rest) := Glyph.cutSpaces width gs
  if cut.length = width then some rest else none

/-- Takes off a line what an open container asks for. Blank lines belong to items and footnotes,
unless an item has nothing but blank lines. -/
def continue? (c : Container) (gs : List Glyph) : Option (Container × List Glyph) :=
  let blank := gs.all Glyph.isSpace
  match c with
  | quote => (takeQuote? gs).map fun rest => (quote, rest)
  | item marker width bare =>
    if blank then
      if bare then none else some (c, (Glyph.cutSpaces width gs).2)
    else (takeIndent? width gs).map fun rest => (item marker width false, rest)
  | footnote _ =>
    if blank then some (c, (Glyph.cutSpaces Glyph.tabWidth gs).2)
    else (takeIndent? Glyph.tabWidth gs).map fun rest => (c, rest)

/-- Most digits in the number of an item. -/
def digitsMax : Nat := 9

/-- The marker of an item and its length. A paragraph is only interrupted by the number one. -/
def itemMarker? (interrupting : Bool) (gs : List Glyph) : Option (Char × Nat) :=
  match gs with
  | [] => none
  | g :: _ =>
    if g.char = '+' then some ('+', 1)
    else if g.char = '*' || g.char = '-' then
      if isThematicBreak gs then none else some (g.char, 1)
    else
      let digits := gs.takeWhile (·.char.isDigit)
      match gs.dropWhile (·.char.isDigit) with
      | d :: _ =>
        if (d.char = '.' || d.char = ')') && 1 ≤ digits.length && digits.length ≤ digitsMax &&
            (!interrupting || digits.map (·.char) = ['1']) then some (d.char, digits.length + 1)
        else none
      | [] => none

/-- Opens an item. Its text starts behind up to four spaces; when there are more, one of them
belongs to the item, and the others are part of the text. -/
def openItem? (interrupting : Bool) (gs : List Glyph) : Option (Container × List Glyph) :=
  let indent := (Glyph.cutSpaces indentMax gs).1.length
  (itemMarker? interrupting (gs.drop indent)).bind fun (marker, length) =>
    let rest := gs.drop (indent + length)
    let sized (taken extra : Nat) (bare : Bool) : Container × List Glyph :=
      (item marker (Glyph.size (gs.take taken) (gs.drop taken).head? + extra) bare, gs.drop taken)
    if rest.all Glyph.isSpace then
      if interrupting then none else some (sized (indent + length) 1 true)
    else
      let spaces := (rest.takeWhile Glyph.isSpace).length
      if spaces = 0 then none
      else some (sized (indent + length + if spaces ≤ Glyph.tabWidth then spaces else 1) 0 false)

/-- Reads the label of a footnote behind `[^`, which was `size` bytes so far. It holds no blanks. -/
def footnoteLabel? (size : Nat) (escaped : Bool) : List Glyph → Option (List Glyph × List Glyph)
  | [] => none
  | g :: rest =>
    let more (escaped : Bool) : Option (List Glyph × List Glyph) :=
      (footnoteLabel? (size + g.char.utf8Size) escaped rest).map fun (l, rest) => (g :: l, rest)
    if escaped && (g.char = '[' || g.char = '\\' || g.char = ']') then more false
    else if Label.sizeMax < size || g.isSpace || g.isLineEnd || g.char = '[' then none
    else if g.char = ']' then (if size = 0 then none else some ([], rest))
    else more (g.char = '\\')

/-- Opens the definition of a footnote. -/
def openFootnote? (gs : List Glyph) : Option (Container × List Glyph) :=
  match (Glyph.cutSpaces indentMax gs).2 with
  | a :: b :: rest =>
    if a.char = '[' && b.char = '^' then
      (footnoteLabel? 0 false rest).bind fun (label, rest) =>
        (Target.skip? ':' rest).map fun rest =>
          (footnote (Label.key (Glyph.text label)), Glyph.dropSpaces rest)
    else none
  | _ => none

/-- Opens a container, if a line starts with one. -/
def open? (interrupting : Bool) (gs : List Glyph) : Option (Container × List Glyph) :=
  ((takeQuote? gs).map fun rest => (quote, rest)).or <|
    (openItem? interrupting gs).or (openFootnote? gs)

end Container

end LiveDoc.Markdown
