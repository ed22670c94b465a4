import LiveDoc.Markdown.Autolink
import LiveDoc.Markdown.Node

/-!
# Pieces of running text

Running text is first read into pieces. Then `Piece.nodes` makes nodes of them:

* runs of `*`, `_` and `~` that open and close emphasis are matched (`Piece.matched`);
* spaces around line ends go, and two of them before one make a hard break (`Piece.trimmed`);
* addresses of mailboxes become links;
* all text between other nodes becomes one text node.
-/

namespace LiveDoc.Markdown

open Text (Span)

/-- A run of a marker of emphasis. -/
structure Run where
  glyphs : List Glyph
  /-- Whether emphasis may start behind the run. -/
  opens : Bool
  /-- Whether emphasis may end before the run. -/
  closes : Bool

/-- A piece of running text. -/
inductive Piece where
  | data (glyphs : List Glyph)
  /-- Text that was written in another way. -/
  | meant (span : Span) (value : List Char)
  | lineEnd (g : Glyph)
  /-- A hard break with its line end. -/
  | lineBreak (span : Span)
  | run (run : Run)
  | node (node : Node)

/-! ## Emphasis -/

/-- How a character next to a run counts. -/
inductive Neighbour where
  | blank
  | punctuation
  | other
  deriving DecidableEq

/-- How a character next to a run counts. The ends of the text are blank. -/
def Neighbour.of : Option Char → Neighbour
  | none => blank
  | some c => if Text.isBlank c then blank else if Text.isPunctuation c then punctuation else other

namespace Run

/-- The marker of a run. -/
def marker (r : Run) : Char := (r.glyphs.head?.map (·.char)).getD ' '

/-- The length of a run. -/
def size (r : Run) : Nat := r.glyphs.length

/-- Whether a run of `*` or `_` may stand next to a character because it is another marker. -/
def besideMarker (marker : Char) (next : Option Char) : Bool :=
  marker ≠ '~' && (next = some '*' || next = some '_' || next = some '~')

/-- A run with what it may do where it stands. An underscore does nothing inside of a word. -/
def ofGlyphs (gs : List Glyph) : Run :=
  let marker := (gs.head?.map (·.char)).getD ' '
  let before := gs.head?.bind (·.before)
  let after := gs.getLast?.bind (·.after)
  let left := Neighbour.of before
  let right := Neighbour.of after
  let opens := right = .other || (right = .punctuation && left ≠ .other) ||
    besideMarker marker after
  let closes := left = .other || (left = .punctuation && right ≠ .other) ||
    besideMarker marker before
  if marker = '_' then
    ⟨gs, opens && (left ≠ .other || !closes), closes && (right ≠ .other || !opens)⟩
  else ⟨gs, opens, closes⟩

/-- Whether emphasis may start behind one run and end before another. -/
def fits (opening closing : Run) : Bool :=
  opening.opens && opening.marker = closing.marker &&
    !((opening.closes || closing.opens) && closing.size % 3 ≠ 0 &&
      (opening.size + closing.size) % 3 = 0) &&
    (closing.marker ≠ '~' || (closing.size = opening.size && closing.size ≤ 2))

end Run

namespace Piece

/-- The nearest run before a run that fits it: what stands between them, and what stands before.
Pieces are reversed. -/
def findOpening (closing : Run) : List Piece → Option (List Piece × Run × List Piece)
  | [] => none
  | .run r :: before =>
    if r.fits closing then some ([], r, before)
    else (findOpening closing before).map fun (inner, o, rest) => (.run r :: inner, o, rest)
  | p :: before => (findOpening closing before).map fun (inner, o, rest) => (p :: inner, o, rest)

/-! ## Text -/

/-- A run that was not matched is data. -/
def unmatched : Piece → Piece
  | .run r => .data r.glyphs
  | p => p

/-- Joins data that nothing separates. -/
def joined : List Piece → List Piece
  | [] => []
  | p :: rest =>
    match unmatched p, joined rest with
    | .data gs, .data hs :: rest => .data (gs ++ hs) :: rest
    | p, rest => p :: rest

/-- Cuts off the spaces at the end of a run of glyphs. -/
def cutTrailing (gs : List Glyph) : List Glyph × List Glyph :=
  ((Glyph.dropSpaces gs.reverse).reverse, (gs.reverse.takeWhile Glyph.isSpace).reverse)

/-- Whether spaces before a line end make a hard break: two or more, and no tab. -/
def isBreaking (spaces : List Glyph) : Bool := 2 ≤ spaces.length && spaces.all (·.source = [' '])

/-- Drops the spaces around line ends, those at the start if `atStart`, and those at the end if
`atEnd`. -/
def trimmed (atStart atEnd : Bool) : List Piece → List Piece
  | [] => []
  | .data gs :: .lineEnd g :: rest =>
    let (text, spaces) := cutTrailing gs
    let text := if atStart then Glyph.dropSpaces text else text
    (if text.isEmpty then [] else [.data text]) ++
      (if isBreaking spaces then .lineBreak ⟨Glyph.startOf 0 spaces, g.stop⟩ else .lineEnd g) ::
        trimmed true atEnd rest
  | .data gs :: rest =>
    let text := if rest.isEmpty && atEnd then (cutTrailing gs).1 else gs
    let text := if atStart then Glyph.dropSpaces text else text
    (if text.isEmpty then [] else [.data text]) ++ trimmed false atEnd rest
  | .lineEnd g :: rest => .lineEnd g :: trimmed true atEnd rest
  | .lineBreak s :: rest => .lineBreak s :: trimmed true atEnd rest
  | p :: rest => p :: trimmed false atEnd rest

/-- A text node for a run of glyphs. -/
def textNode (gs : List Glyph) : Node :=
  .text (some (Glyph.spanOf gs)) (String.ofList (Glyph.text gs))

/-- A link whose text is its address. -/
def addressNode (gs : List Glyph) : Node :=
  .element .link (some (Glyph.spanOf gs)) [textNode gs]

/-- Makes links of the addresses of mailboxes in data. -/
def linked : List Piece → List Piece
  | [] => []
  | .data gs :: rest =>
    ((Autolink.mailboxes gs).map fun (address, part) =>
      if address then .node (addressNode part) else .data part) ++ linked rest
  | p :: rest => p :: linked rest

/-- The text node for text that was gathered. -/
def gathered : Option (Span × List Char) → List Node
  | none => []
  | some (span, value) => [.text (some span) (String.ofList value)]

/-- Adds text to what was gathered. -/
def gather (before : Option (Span × List Char)) (span : Span) (value : List Char) :
    Option (Span × List Char) :=
  match before with
  | none => some (span, value)
  | some (s, v) => some (⟨s.start, span.stop⟩, v ++ value)

/-- Makes nodes of pieces, with one text node for all text between other nodes. -/
def toNodes (text : Option (Span × List Char)) : List Piece → List Node
  | [] => gathered text
  | .data gs :: rest => toNodes (gather text (Glyph.spanOf gs) (Glyph.text gs)) rest
  | .run r :: rest => toNodes (gather text (Glyph.spanOf r.glyphs) (Glyph.text r.glyphs)) rest
  | .meant span value :: rest => toNodes (gather text span value) rest
  | .lineEnd g :: rest => toNodes (gather text ⟨g.start, g.stop⟩ g.source) rest
  | .lineBreak span :: rest =>
    gathered text ++ .element .lineBreak (some span) [] :: toNodes none rest
  | .node n :: rest => gathered text ++ n :: toNodes none rest

/-- The nodes of pieces in which all emphasis was matched. -/
def settled (inLink atStart atEnd : Bool) (pieces : List Piece) : List Node :=
  let pieces := trimmed atStart atEnd (joined pieces)
  toNodes none (if inLink then pieces else linked pieces)

/-! ## Matching -/

/-- Closes emphasis with a run, as often as it can. Pieces before it are reversed. -/
def closeRun (inLink : Bool) : (fuel : Nat) → Run → List Piece → List Piece
  | 0, _, before => before
  | fuel + 1, r, before =>
    if r.glyphs.isEmpty then before
    else
      match if r.closes then findOpening r before else none with
      | none => .run r :: before
      | some (inner, o, rest) =>
        let take := if 1 < o.size && 1 < r.size then 2 else 1
        let left := o.glyphs.take (o.size - take)
        let element : Element :=
          if r.marker = '~' then .delete else if take = 1 then .emphasis else .strong
        let span : Span :=
          ⟨Glyph.startOf 0 (o.glyphs.drop (o.size - take)), Glyph.stopOf 0 (r.glyphs.take take)⟩
        let made := .node (.element element (some span) (settled inLink false false inner.reverse))
        let rest := if left.isEmpty then rest else .run { o with glyphs := left } :: rest
        closeRun inLink fuel { r with glyphs := r.glyphs.drop take } (made :: rest)

/-- Matches runs from left to right. Pieces before are reversed. -/
def matched (inLink : Bool) (before : List Piece) : List Piece → List Piece
  | [] => before.reverse
  | .run r :: rest => matched inLink (closeRun inLink (r.size + 1) r before) rest
  | p :: rest => matched inLink (p :: before) rest

/-- The nodes of pieces. -/
def nodes (inLink atStart atEnd : Bool) (pieces : List Piece) : List Node :=
  settled inLink atStart atEnd (matched inLink [] pieces)

end Piece

end LiveDoc.Markdown
