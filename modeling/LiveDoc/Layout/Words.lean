import LiveDoc.Text.Blank
import LiveDoc.Text.Lines
import LiveDoc.Text.Span

/-!
# Words of a paragraph

A paragraph is laid out anew by its words: the pieces between blanks. Blanks inside of some spans,
those of code, separate nothing.

* `words` cuts a text into words;
* `fill` puts words on lines, as many as fit. A word that would start a block at the start of a line
  stays on the line before;
* `normalize` keeps the lines, with single spaces between words.
-/

namespace LiveDoc.Layout

open Text (Span)

/-- Whether a character at a place separates words. -/
def splits (kept : List Span) (place : Nat) (c : Char) : Bool :=
  Text.isBlank c && !kept.any (·.contains place)

/-- Cuts a text at a place into words; `word` is the current word so far, reversed. -/
def wordsFrom (kept : List Span) (place : Nat) (word : List Char) : List Char → List (List Char)
  | [] => if word.isEmpty then [] else [word.reverse]
  | c :: rest =>
    let next := place + c.utf8Size
    if splits kept place c then
      if word.isEmpty then wordsFrom kept next [] rest
      else word.reverse :: wordsFrom kept next [] rest
    else wordsFrom kept next (c :: word) rest

/-- The words of a text that starts at a place of the paragraph to which the spans belong. -/
def words (kept : List Span) (place : Nat) (text : List Char) : List (List Char) :=
  wordsFrom kept place [] text

/-! ## Wrapping -/

/-- Whether a word at the start of a line could start a block. -/
def startsBlock (word : List Char) : Bool :=
  match word with
  | [] => false
  | c :: _ =>
    ['#', '>', '-', '+', '*', '=', '|', '`', '~'].contains c ||
      (c.isDigit &&
        match word.dropWhile Char.isDigit with
        | d :: _ => d = '.' || d = ')'
        | [] => false)

/-- Puts words on lines behind a line that has some words already, and a length. -/
def fillFrom (width : Nat) (line : List (List Char)) (length : Nat) :
    List (List Char) → List (List (List Char))
  | [] => [line]
  | word :: rest =>
    if length + 1 + word.length ≤ width || startsBlock word then
      fillFrom width (line ++ [word]) (length + 1 + word.length) rest
    else line :: fillFrom width [word] word.length rest

/-- Puts words on lines of at most `width` characters, where words allow it. -/
def fill (width : Nat) : List (List Char) → List (List (List Char))
  | [] => []
  | word :: rest => fillFrom width [word] word.length rest

/-- The text of words on lines. -/
def wrap (kept : List Span) (width : Nat) (ending : List Char) (text : List Char) : List Char :=
  Text.join ending ((fill width (words kept 0 text)).map (Text.join [' ']))

/-! ## Single spaces -/

/-- Whether a line ends with two spaces, which make a hard break. -/
def endsWithBreak (line : List Char) : Bool :=
  match (Text.dropFinal '\r' line).reverse with
  | ' ' :: ' ' :: _ => true
  | _ => false

/-- A line at a place with single spaces between its words. A hard break at its end stays. -/
def normalizeLine (kept : List Span) (place : Nat) (line : List Char) : List Char :=
  let text := Text.join [' '] (words kept place line)
  if endsWithBreak line && !text.isEmpty then text ++ [' ', ' '] else text

/-- Normalizes the lines from a place on. -/
def normalizeLines (kept : List Span) (place : Nat) : List (List Char) → List (List Char)
  | [] => []
  | line :: rest =>
    normalizeLine kept place line ::
      normalizeLines kept (place + Text.byteLength line + 1) rest

/-- The text with single spaces between the words of each line. -/
def normalize (kept : List Span) (ending : List Char) (text : List Char) : List Char :=
  Text.join ending (normalizeLines kept 0 (Text.split '\n' text))

end LiveDoc.Layout
