import LiveDoc.Markdown.Leaf

/-!
# Tables

A row is cut into cells at bars. A table starts with a head row, and a row that draws lines under
as many cells. A bar behind a backslash belongs to a cell.
-/

namespace LiveDoc.Markdown.Table

open Text (Span)

/-- What a glyph is in a row. -/
inductive Part where
  | space
  | bar
  | content
  deriving DecidableEq, Repr

/-- Tells what each glyph of a row is. `escaped` tells whether a backslash comes before. -/
def parts (escaped : Bool) : List Glyph → List (Part × Glyph)
  | [] => []
  | g :: rest =>
    if escaped && (g.char = '\\' || g.char = '|') then (.content, g) :: parts false rest
    else if g.char = '|' then (.bar, g) :: parts false rest
    else if g.isSpace then (.space, g) :: parts false rest
    else (.content, g) :: parts (g.char = '\\') rest

/-- The number of cells in a row: a cell starts with what first follows a bar, or the start of a row
that no bar starts. -/
def countCells (opened : Bool) : List Part → Nat
  | [] => 0
  | .space :: rest => countCells opened rest
  | .bar :: rest => (if opened then 1 else 0) + countCells true rest
  | .content :: rest => (if opened then 1 else 0) + countCells false rest

/-- The number of cells in a line that can be the head of a table. -/
def headSize? (gs : List Glyph) : Option Nat :=
  let line := (Glyph.cutSpaces indentMax gs).2
  let row : List Part := (parts false line).map (·.1)
  match row with
  | [] | .space :: _ => none
  | .content :: _ => some (countCells true row)
  | .bar :: rest => if rest.all (· = .space) then none else some (countCells false row)

/-- Reads cells of the row under the head, of which `count` were read; `drawn` tells whether a bar
or a colon was seen. -/
def rulesFrom : (fuel : Nat) → (drawn : Bool) → (count : Nat) → List Glyph → Option (Bool × Nat)
  | 0, _, _, _ => none
  | fuel + 1, drawn, count, gs =>
    let barred := Glyph.startsWith ['|'] gs
    let gs := if barred then Glyph.dropSpaces (gs.drop 1) else gs
    if gs.isEmpty then (if barred then some (true, count) else none)
    else
      let left := Glyph.startsWith [':'] gs
      let gs := if left then gs.drop 1 else gs
      let rest := gs.dropWhile (·.char = '-')
      let right := Glyph.startsWith [':'] rest
      let next := Glyph.dropSpaces (if right then rest.drop 1 else rest)
      let drawn := drawn || barred || left || right
      if !Glyph.startsWith ['-'] gs then none
      else if next.isEmpty then some (drawn, count + 1)
      else if Glyph.startsWith ['|'] next then rulesFrom fuel drawn (count + 1) next
      else none

/-- Whether a line draws lines under a head of the given number of cells. -/
def isRule (cells : Nat) (gs : List Glyph) : Bool :=
  let line := (Glyph.cutSpaces indentMax gs).2
  rulesFrom (line.length + 1) false 0 line == some (true, cells)

/-- A cell: its place, and the glyphs of its text. -/
structure Cell where
  span : Span
  text : List Glyph
  deriving DecidableEq, Repr

/-- A cell that is being read: where it starts, and its glyphs so far, reversed. -/
structure OpenCell where
  start : Nat
  glyphs : List Glyph

/-- The cell, when it ends at a place. -/
def OpenCell.close (c : OpenCell) (stop : Nat) : Cell :=
  ⟨⟨c.start, stop⟩, (Glyph.dropSpaces c.glyphs).reverse⟩

/-- Cuts a row that ends at `stop` into cells. `before` is a cell whose end is not known yet, and
`leading` tells whether no bar and no content was seen. A last bar starts no cell. -/
def cellsFrom (stop : Nat) (leading : Bool) (before : Option OpenCell) (cell : OpenCell) :
    List (Part × Glyph) → List Cell
  | [] => [(before.getD cell).close stop]
  | (.space, g) :: rest =>
    let cell := if cell.glyphs.isEmpty then cell else { cell with glyphs := g :: cell.glyphs }
    cellsFrom stop leading before cell rest
  | (.content, g) :: rest =>
    (before.map (·.close cell.start)).toList ++
      cellsFrom stop false none { cell with glyphs := g :: cell.glyphs } rest
  | (.bar, g) :: rest =>
    if leading then cellsFrom stop false before cell rest
    else
      (before.map (·.close cell.start)).toList ++
        cellsFrom stop false (some cell) ⟨g.start, []⟩ rest

/-- The cells of a row. The first one starts, and the last one ends, with the row. -/
def cells (row : Line) : List Cell :=
  cellsFrom row.stop true none ⟨row.start, []⟩ (parts false row.glyphs)

end LiveDoc.Markdown.Table
