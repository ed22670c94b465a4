import LiveDoc.Text.Blank
import LiveDoc.Text.Span

/-!
# Glyphs

Markdown is read glyph by glyph. A glyph is a character together with its place in the source. Two
kinds of glyphs stand for something else than one character:

* a line end is one glyph `'\n'`, whether the source has a line feed, a carriage return, or both;
* a tab is as many glyphs as it has columns: first `'\t'`, then spaces that have no text of their
  own. A rule that takes some columns of a tab leaves the others.

`Line.ofText` cuts a text into lines of glyphs, and `Glyph.text` gives their text back.
-/

namespace LiveDoc.Markdown

open Text (Span)

/-- A character as the rules see it. -/
structure Glyph where
  /-- What the rules see. -/
  char : Char
  /-- The text of the source that it stands for. -/
  source : List Char
  /-- The byte place at which it starts. All columns of a tab start where the tab does. -/
  start : Nat
  /-- The byte place behind it. Only the last column of a tab ends behind the tab. -/
  stop : Nat
  /-- For the columns of a tab but the first, the number of columns before it. -/
  column : Nat
  /-- The character of the source before it. -/
  before : Option Char
  /-- The character of the source behind it. -/
  after : Option Char
  deriving DecidableEq, Repr

namespace Glyph

/-- Whether a glyph is a space or a column of a tab. -/
def isSpace (g : Glyph) : Bool := g.char = ' ' || g.char = '\t'

/-- Whether a glyph is a line end. -/
def isLineEnd (g : Glyph) : Bool := g.char = '\n'

/-- Number of columns between the places where a tab ends. -/
def tabWidth : Nat := 4

/-- The text of a run of glyphs behind a glyph that starts at `last`. Columns of a tab that was cut
before the run are written as spaces, counted as if the tab had its full width. -/
def textFrom (last : Option Nat) : List Glyph → List Char
  | [] => []
  | g :: rest =>
    (if g.column = 0 || last = some g.start then g.source
      else List.replicate (tabWidth - g.column) ' ') ++ textFrom (some g.start) rest

/-- The text of a run of glyphs. -/
def text (gs : List Glyph) : List Char := textFrom none gs

/-- The place where a run starts, or `place` for an empty one. -/
def startOf (place : Nat) (run : List Glyph) : Nat :=
  match run.head? with
  | some g => g.start
  | none => place

/-- The place where a run ends, or `place` for an empty one. -/
def stopOf (place : Nat) (run : List Glyph) : Nat :=
  match run.getLast? with
  | some g => g.stop
  | none => place

/-- The span of a run. -/
def spanOf (run : List Glyph) : Span := ⟨startOf 0 run, stopOf 0 run⟩

/-- Whether a run starts with the given characters. -/
def startsWith : List Char → List Glyph → Bool
  | [], _ => true
  | _ :: _, [] => false
  | c :: cs, g :: rest => g.char = c && startsWith cs rest

/-- Cuts off the longest prefix of at most `max` spaces. -/
def cutSpaces : (max : Nat) → List Glyph → List Glyph × List Glyph
  | 0, gs => ([], gs)
  | _ + 1, [] => ([], [])
  | max + 1, g :: rest =>
    if g.isSpace then
      let (cut, rest) := cutSpaces max rest
      (g :: cut, rest)
    else ([], g :: rest)

/-- A run without the spaces that it starts with. -/
def dropSpaces (gs : List Glyph) : List Glyph := gs.dropWhile isSpace

/-- Whether a run holds spaces and line ends only. -/
def isBlank (gs : List Glyph) : Bool := gs.all fun g => g.isSpace || g.isLineEnd

/-- The size of a run of glyphs before `next`: a whole tab counts as one, and what was cut off a
tab as the columns that a tab of full width has there. -/
def size (run : List Glyph) (next : Option Glyph) : Nat :=
  match run.head?, run.getLast? with
  | some first, some last =>
    let before := if first.column = 0 then 0 else tabWidth - first.column
    let start := if first.column = 0 then first.start else first.start + 1
    match next with
    | some g => if g.column = 0 then g.start - start + before
        else g.start + 1 - start + before + (g.column - 1)
    | none => last.stop - start + before
  | _, _ => 0

end Glyph

/-- A line: its glyphs, and the line end if it has one. -/
structure Line where
  glyphs : List Glyph
  ending : Option Glyph
  /-- The place where the line starts. -/
  start : Nat
  deriving DecidableEq, Repr

namespace Line

/-- The place behind the glyphs of a line. -/
def stop (l : Line) : Nat := Glyph.stopOf l.start l.glyphs

/-- The place behind a line, its line end included. -/
def next (l : Line) : Nat :=
  match l.ending with
  | some g => g.stop
  | none => l.stop

/-- All glyphs of a line, the line end included. -/
def all (l : Line) : List Glyph := l.glyphs ++ l.ending.toList

/-- Whether a line holds nothing but spaces. -/
def isBlank (l : Line) : Bool := l.glyphs.all Glyph.isSpace

/-- What is left of a line when `rest` is left of its glyphs. -/
def cutTo (l : Line) (rest : List Glyph) : Line := ⟨rest, l.ending, Glyph.startOf l.stop rest⟩

/-- The columns of a tab at a column. -/
def tabColumns (place column : Nat) (before after : Option Char) : List Glyph :=
  let width := Glyph.tabWidth - column % Glyph.tabWidth
  (List.range width).map fun i =>
    let stop := if i + 1 = width then place + 1 else place
    if i = 0 then ⟨'\t', ['\t'], place, stop, 0, before, after⟩
    else ⟨' ', [], place, stop, i, before, after⟩

/-- Reads lines. `glyphs` are those of the line so far, reversed; `lineStart` is where it started,
and its width so far is counted in bytes and in columns of tabs. -/
def read (lineStart place column : Nat) (before : Option Char) (glyphs : List Glyph) :
    List Char → List Line
  | [] => if glyphs.isEmpty then [] else [⟨glyphs.reverse, none, lineStart⟩]
  | '\r' :: '\n' :: rest =>
    ⟨glyphs.reverse, some ⟨'\n', ['\r', '\n'], place, place + 2, 0, before, rest.head?⟩, lineStart⟩
      :: read (place + 2) (place + 2) 0 (some '\n') [] rest
  | c :: rest =>
    if c = '\n' || c = '\r' then
      ⟨glyphs.reverse, some ⟨'\n', [c], place, place + 1, 0, before, rest.head?⟩, lineStart⟩
        :: read (place + 1) (place + 1) 0 (some c) [] rest
    else if c = '\t' then
      let columns := tabColumns place column before rest.head?
      read lineStart (place + 1) (column + columns.length) (some c) (columns.reverse ++ glyphs) rest
    else
      let size := c.utf8Size
      read lineStart (place + size) (column + size) (some c)
        (⟨c, [c], place, place + size, 0, before, rest.head?⟩ :: glyphs) rest

/-- The lines of a text. A byte order mark at the start belongs to no line. -/
def ofText (s : List Char) : List Line :=
  match s with
  | '\uFEFF' :: rest => read 3 3 0 none [] rest
  | _ => read 0 0 0 none [] s

end Line

end LiveDoc.Markdown
