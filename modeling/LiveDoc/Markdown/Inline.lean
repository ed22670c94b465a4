import LiveDoc.Markdown.Escape
import LiveDoc.Markdown.Html
import LiveDoc.Markdown.Piece
import LiveDoc.Markdown.Target

/-!
# Running text

Running text is read from left to right. A construct that is complete in itself becomes a piece
(`Inline.construct?`). A bracket stays open until the bracket that closes it is met: then what
follows, or the labels that the document defines, tell whether it makes a link (`Inline.close`).
-/

namespace LiveDoc.Markdown

open Text (Span)

/-- What the document defines: the labels of targets and of footnotes. -/
structure Labels where
  targets : List (List Char)
  footnotes : List (List Char)

namespace Inline

/-! ## Code -/

/-- Finds the next run of exactly `size` backticks: what is before it, and what follows. -/
def closingTicks? (size : Nat) : (fuel : Nat) → List Glyph → Option (List Glyph × List Glyph)
  | 0, _ => none
  | fuel + 1, gs =>
    let text := gs.takeWhile (·.char ≠ '`')
    let rest := gs.dropWhile (·.char ≠ '`')
    let ticks := rest.takeWhile (·.char = '`')
    let rest := rest.dropWhile (·.char = '`')
    if ticks.isEmpty then none
    else if ticks.length = size then some (text, rest)
    else (closingTicks? size fuel rest).map fun (more, rest) => (text ++ ticks ++ more, rest)

/-- The text without the backslashes before bars. -/
def dropBarEscapes : List Char → List Char
  | '\\' :: '|' :: rest => '|' :: dropBarEscapes rest
  | c :: rest => c :: dropBarEscapes rest
  | [] => []

/-- The text of code: one space at both ends does not belong to it, unless it is all spaces. -/
def codeText (cell : Bool) (gs : List Glyph) : List Char :=
  let text := if cell then dropBarEscapes (Glyph.text gs) else Glyph.text gs
  match text with
  | ' ' :: rest =>
    if rest.getLast? = some ' ' && rest.any (· ≠ ' ') then rest.dropLast else text
  | _ => text

/-- The code that a run starts with. In a cell of a table, bars in it are escaped. -/
def code? (cell : Bool) (gs : List Glyph) : Option (Piece × List Glyph) :=
  let ticks := gs.takeWhile (·.char = '`')
  if ticks.isEmpty then none
  else
    (closingTicks? ticks.length (gs.length + 1) (gs.drop ticks.length)).map fun (text, rest) =>
      let span := Glyph.spanOf (gs.take (gs.length - rest.length))
      (.node (.inlineCode (some span) (String.ofList (codeText cell text))), rest)

/-! ## Constructs that are complete in themselves -/

/-- A node that spans the glyphs up to the rest. -/
def upTo (gs rest : List Glyph) (element : Element) : Piece × List Glyph :=
  (.node (.element element (some (Glyph.spanOf (gs.take (gs.length - rest.length)))) []), rest)

/-- What a backslash starts: an escape, or a hard break. -/
def backslash? : List Glyph → Option (Piece × List Glyph)
  | b :: g :: rest =>
    if g.isLineEnd then some (.lineBreak ⟨b.start, g.stop⟩, rest)
    else
      (Escape.escape? (b :: g :: rest)).map fun (e, rest) =>
        (.meant ⟨e.start, e.stop⟩ e.source, rest)
  | _ => none

/-- What an ampersand starts. -/
def ampersand? (gs : List Glyph) : Option (Piece × List Glyph) :=
  (Escape.reference? gs).map fun (value, rest) =>
    (.meant (Glyph.spanOf (gs.take (gs.length - rest.length))) value, rest)

/-- What an angle bracket starts: an address, or HTML. -/
def angle? (gs : List Glyph) : Option (Piece × List Glyph) :=
  match Autolink.bracketed? gs with
  | some (address, rest) =>
    let span := Glyph.spanOf (gs.take (gs.length - rest.length))
    some (.node (.element .link (some span) [Piece.textNode address]), rest)
  | none => (Html.inline? gs).map fun rest => upTo gs rest .html

/-- The construct that a run starts with, behind a character that may be escaped. -/
def construct? (cell : Bool) (before : Option Char) (escaped : Bool) (gs : List Glyph) :
    Option (Piece × List Glyph) :=
  match gs with
  | [] => none
  | g :: rest =>
    if g.isLineEnd then some (.lineEnd g, rest)
    else if g.char = '\\' then backslash? gs
    else if g.char = '&' then ampersand? gs
    else if g.char = '`' then (if before = some '`' && !escaped then none else code? cell gs)
    else if g.char = '<' then angle? gs
    else if g.char = '*' || g.char = '_' || g.char = '~' then
      let run := gs.takeWhile (·.char = g.char)
      some (.run (Run.ofGlyphs run), gs.drop run.length)
    else
      (Autolink.literal? before gs).map fun address =>
        (.node (Piece.addressNode address), gs.drop address.length)

/-! ## Brackets -/

/-- What a bracket may start. -/
inductive BracketKind where
  | link
  | image
  | footnote
  deriving DecidableEq

/-- A bracket that is open. -/
structure Bracket where
  kind : BracketKind
  /-- The bracket and the sign that goes with it. -/
  glyphs : List Glyph
  /-- What follows. -/
  content : List Glyph
  /-- A bracket around a link makes no link. -/
  live : Bool
  /-- The pieces before the bracket, reversed. -/
  before : List Piece

/-- The bracket that a run starts with. -/
def open? (gs : List Glyph) (before : List Piece) : Option Bracket :=
  let opened (kind : BracketKind) (length : Nat) : Option Bracket :=
    some ⟨kind, gs.take length, gs.drop length, true, before⟩
  if Glyph.startsWith ['!', '['] gs then
    if Glyph.startsWith ['!', '[', '^'] gs then none else opened .image 2
  else if Glyph.startsWith ['[', '^'] gs then opened .footnote 2
  else if Glyph.startsWith ['['] gs then opened .link 1
  else none

/-- The pieces read so far, reversed, and the open brackets, the innermost first. -/
structure Reading where
  pieces : List Piece
  brackets : List Bracket

namespace Reading

/-- The innermost bracket turns out to be text. -/
def loosen (r : Reading) : Reading :=
  match r.brackets with
  | [] => r
  | b :: brackets => ⟨r.pieces ++ .data b.glyphs :: b.before, brackets⟩

/-- All brackets turn out to be text: the pieces, in order. -/
def finish (r : Reading) : List Piece :=
  (r.brackets.foldl (fun pieces b => pieces ++ .data b.glyphs :: b.before) r.pieces).reverse

end Reading

/-- What follows the target of a bracket, and whether the target is named by a label. A label of
its own is used when the text between the brackets is none that is defined. -/
def target? (labels : Labels) (isDefined : Bool) (gs : List Glyph) : Option (Bool × List Glyph) :=
  let shortcut := if isDefined then some (true, gs) else none
  if Glyph.startsWith ['('] gs then
    ((Target.resource? gs).map fun rest => (false, rest)).or shortcut
  else if Glyph.startsWith ['['] gs then
    let full := (Label.read? gs).bind fun (label, rest) =>
      if labels.targets.contains (Label.key (Glyph.text label)) then some (true, rest) else none
    full.or (if isDefined && Glyph.startsWith ['[', ']'] gs then some (true, gs.drop 2) else none)
  else shortcut

/-- The element that a bracket makes. -/
def BracketKind.element (kind : BracketKind) (byLabel : Bool) : Element :=
  match kind, byLabel with
  | .image, false => .image
  | .image, true => .imageReference
  | _, false => .link
  | _, true => .linkReference

/-- Puts an element in the place of a bracket and what it holds. No link contains another one, so
brackets around this one make no links any more. -/
def close (r : Reading) (b : Bracket) (outer : List Bracket) (element : Element)
    (children : List Node) (stop : Nat) : Reading :=
  let node := .element element (some ⟨Glyph.startOf 0 b.glyphs, stop⟩) children
  let outer := if b.kind = .image then outer
    else outer.map fun o => if o.kind = .image then o else { o with live := false }
  { r with pieces := .node node :: b.before, brackets := outer }

/-- Reads a closing bracket `g`. -/
def closing (labels : Labels) (r : Reading) (g : Glyph) (rest : List Glyph) :
    Reading × List Glyph :=
  let loose (r : Reading) : Reading × List Glyph :=
    let r := r.loosen
    ({ r with pieces := .data [g] :: r.pieces }, rest)
  match r.brackets with
  | [] => loose r
  | b :: outer =>
    if !b.live then loose r
    else
      let content := b.content.take (b.content.length - (rest.length + 1))
      let key := Label.key (Glyph.text content)
      if b.kind = .footnote && labels.footnotes.contains key then
        (close r b outer .footnoteReference [] g.stop, rest)
      else
        let key := if b.kind = .footnote then '^' :: key else key
        match target? labels (labels.targets.contains key) rest with
        | none => loose r
        | some (byLabel, after) =>
          let used := rest.take (rest.length - after.length)
          let lead := if b.kind = .footnote then [.data (b.glyphs.drop 1)] else []
          let children := if b.kind = .image then []
            else Piece.nodes true false false (lead ++ r.pieces.reverse)
          (close r b outer (b.kind.element byLabel) children (Glyph.stopOf g.stop used), after)

/-! ## The text -/

/-- Reads up to `fuel` glyphs behind a character that may be escaped. -/
def read (labels : Labels) (cell : Bool) : (fuel : Nat) → (before : Option Char) →
    (escaped : Bool) → Reading → List Glyph → Reading
  | 0, _, _, r, _ => r
  | _ + 1, _, _, r, [] => r
  | fuel + 1, before, escaped, r, g :: rest =>
    match open? (g :: rest) r.pieces with
    | some b =>
      read labels cell fuel (b.glyphs.getLast?.map (·.char)) false ⟨[], b :: r.brackets⟩ b.content
    | none =>
      if g.char = ']' then
        let (r, after) := closing labels r g rest
        let used := rest.take (rest.length - after.length)
        read labels cell fuel (some ((used.getLast?.getD g).char)) false r after
      else
        match construct? cell before escaped (g :: rest) with
        | some (piece, after) =>
          let used := rest.take (rest.length - after.length)
          let escaped := match piece with
            | .meant _ _ => true
            | _ => false
          read labels cell fuel (some ((used.getLast?.getD g).char)) escaped
            { r with pieces := piece :: r.pieces } after
        | none =>
          read labels cell fuel (some g.char) false { r with pieces := .data [g] :: r.pieces } rest

/-- The nodes of running text behind a character. -/
def nodesAfter (labels : Labels) (cell : Bool) (before : Option Char) (gs : List Glyph) :
    List Node :=
  Piece.nodes false before.isNone true
    (read labels cell (gs.length + 1) before false ⟨[], []⟩ gs).finish

/-- The nodes of running text. -/
def nodes (labels : Labels) (gs : List Glyph) : List Node := nodesAfter labels false none gs

/-- The nodes of a cell of a table. -/
def cellNodes (labels : Labels) (gs : List Glyph) : List Node := nodesAfter labels true none gs

/-! ## Tasks -/

/-- What follows the box of a task at the start of a text, if there is text behind it. -/
def task? : List Glyph → Option (List Glyph)
  | a :: b :: c :: rest =>
    let behind := match rest with
      | g :: _ => g.isLineEnd || (g.isSpace && !(Glyph.dropSpaces rest).isEmpty)
      | [] => false
    if a.char = '[' && (b.isSpace || b.isLineEnd || b.char = 'x' || b.char = 'X') &&
        c.char = ']' && behind then some rest else none
  | _ => none

/-- Drops the blank behind the box of a task from the nodes of its text. Gives the place where the
text starts as well. -/
def dropBlank (start : Nat) : List Node → Nat × List Node
  | .text (some span) value :: rest =>
    let (size, value) := match value.toList with
      | '\r' :: '\n' :: value => (2, value)
      | _ :: value => (1, value)
      | [] => (0, [])
    let place := span.start + size
    (place, if value.isEmpty then rest
      else .text (some ⟨place, span.stop⟩) (String.ofList value) :: rest)
  | nodes => (start, nodes)

end Inline

end LiveDoc.Markdown
