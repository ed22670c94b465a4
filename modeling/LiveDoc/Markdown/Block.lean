import LiveDoc.Markdown.Container
import LiveDoc.Markdown.Html
import LiveDoc.Markdown.Node
import LiveDoc.Markdown.Table

/-!
# Blocks

The lines of a text are read one after the other. For every line, `Reader.step` first finds the open
containers that it belongs to, then opens new ones, and gives the rest of the line to the leaf that
is open, or to a new leaf.

* `Leaf` is what is open at the end of the innermost container, and `Leaf.continue?` tells whether
  it takes a line for itself.
* `Start.ofLine` tells what a line starts otherwise.
* A line that continues a paragraph may lack the marks of containers: it is *lazy*.
-/

namespace LiveDoc.Markdown

open Text (Span)

/-- A block. Text is kept as glyphs until all labels of the document are known. -/
inductive Block where
  | container (container : Container) (span : Span) (children : List Block)
  /-- A paragraph or a heading. -/
  | text (element : Element) (span : Span) (glyphs : List Glyph)
  /-- A block that has no content of its own: a thematic break or HTML. -/
  | bare (element : Element) (span : Span)
  | definition (label : List Char) (span : Span)
  | code (span : Span) (language details : Option (List Glyph)) (value : List Char)
  | table (span : Span) (rows : List (Span × List Table.Cell))

/-! ## Leaves -/

/-- What is open at the end of the innermost container. Lines and pieces of text are kept in
reverse. -/
inductive Leaf where
  /-- Nothing. -/
  | none
  /-- Nothing, but the last line underlined a heading. -/
  | underlined
  /-- Lines of a paragraph or of definitions. `lead` is a line before them that looks like an
  underline; `head` is the number of cells in the last line if it can be the head of a table. -/
  | content (lead : Option Line) (lines : List Line) (head : Option Nat)
  /-- Indented code: its text up to a line that is not blank, and the line ends behind it. -/
  | indented (start stop : Nat) (value waiting : List (List Char))
  /-- Fenced code: its text, and the last line end. -/
  | fence (opening : FenceOpening) (value : List (List Char)) (ending : List Char)
  | html (kind : Html.Block) (start : Nat)
  /-- A table: its rows without the one that draws lines, and the place where it ends so far. -/
  | table (start stop : Nat) (rows : List Line)

/-- The text without one line end at its start. -/
def dropFirstLineEnd : List Char → List Char
  | '\r' :: '\n' :: rest => rest
  | c :: rest => if c = '\n' || c = '\r' then rest else c :: rest
  | [] => []

/-- The text of reversed pieces without one line end at the end, and without one at the start if
`atStart`. -/
def valueOf (pieces : List (List Char)) (atStart : Bool) : List Char :=
  let text := pieces.reverse.flatten
  let text := if atStart then dropFirstLineEnd text else text
  match text.reverse with
  | '\n' :: '\r' :: rest => rest.reverse
  | c :: rest => if c = '\n' || c = '\r' then rest.reverse else text
  | [] => []

/-- The text of a line end. -/
def endingText (l : Line) : List Char := (l.ending.map (·.source)).getD []

namespace Content

/-- The glyphs of reversed lines, without the last line end. -/
def glyphs : List Line → List Glyph
  | [] => []
  | last :: earlier => (earlier.reverse.flatMap Line.all) ++ last.glyphs

/-- Reads the definitions at the start of a text, at most `fuel` of them. -/
def definitions : (fuel : Nat) → List Glyph → List Block × List Glyph
  | 0, gs => ([], gs)
  | fuel + 1, gs =>
    match Target.definition? gs with
    | none => ([], gs)
    | some (label, rest) =>
      let used := gs.take (gs.length - rest.length)
      let (more, left) := definitions fuel (rest.drop 1)
      (.definition (Label.key (Glyph.text label)) (Glyph.spanOf used) :: more, left)

/-- A block of text from its first to its last glyph. -/
def textBlock (element : Element) (gs : List Glyph) : Block :=
  .text element (Glyph.spanOf gs) gs

/-- The definitions and the text of a paragraph that lines hold. A line before them belongs to the
paragraph when no definition is between them. -/
def parts (lead : Option Line) (lines : List Line) : List Block × List Glyph :=
  let (defs, left) := definitions lines.length (glyphs lines)
  match lead with
  | none => (defs, left)
  | some l =>
    if lines.isEmpty then ([], l.glyphs)
    else if defs.isEmpty then ([], l.all ++ left)
    else (textBlock .paragraph l.glyphs :: defs, left)

/-- The blocks that lines hold. -/
def blocks (lead : Option Line) (lines : List Line) : List Block :=
  let (defs, left) := parts lead lines
  if left.isEmpty then defs else defs ++ [textBlock .paragraph left]

end Content

/-- How a leaf comes to its end behind the last line. -/
inductive Closing where
  /-- Before the line end, which is at the place. -/
  | cut (stop : Nat)
  /-- Code and HTML that wait for their end take the line end as well, up to the second place. -/
  | flushed (stop next : Nat)

/-- The place where a leaf ends. -/
def Leaf.endAt (leaf : Leaf) : Closing → Nat
  | .cut stop => stop
  | .flushed stop next =>
    match leaf with
    | .fence _ _ _ => next
    | .html kind _ => if kind.endsAtBlank then stop else next
    | _ => stop

/-- A block of fenced code. -/
def FenceOpening.block (o : FenceOpening) (stop : Nat) (value : List (List Char)) : Block :=
  let named (gs : List Glyph) := if gs.isEmpty then none else some gs
  .code ⟨o.start, stop⟩ (named o.info) (named o.details) (valueOf value true)

/-- The blocks of a leaf that comes to its end. -/
def Leaf.close (leaf : Leaf) (c : Closing) : List Block :=
  let stop := leaf.endAt c
  match leaf with
  | .none | .underlined => []
  | .content lead lines _ => Content.blocks lead lines
  | .indented start stop value _ =>
    [.code ⟨start, stop⟩ Option.none Option.none (valueOf value false)]
  | .fence o value ending =>
    match c with
    | .cut _ => [o.block stop value]
    | .flushed _ _ => [o.block stop (ending :: value)]
  | .html _ start => [.bare .html ⟨start, stop⟩]
  | .table start stop rows =>
    let row (l : Line) : Span × List Table.Cell := (⟨l.start, l.stop⟩, Table.cells l)
    [.table ⟨start, stop⟩ (rows.reverse.map row)]

/-- Whether a leaf takes lines whatever they start with, so that no container can start in it. -/
def Leaf.isConcrete : Leaf → Bool
  | .fence _ _ _ | .html _ _ => true
  | _ => false

/-- Whether a lazy line may continue a leaf, or a paragraph may start lazily behind it. -/
def Leaf.acceptsLazy : Leaf → Bool
  | .content _ _ _ | .underlined => true
  | _ => false

/-- The leaf with a line that it takes for itself, and the blocks that are complete by then. A lazy
line, and one that opens containers (`pierced`), is never taken here. -/
def Leaf.continue? (leaf : Leaf) (line : Line) (pierced : Bool) : Option (List Block × Leaf) :=
  match leaf with
  | .fence o value ending =>
    if o.closedBy line.glyphs then some ([o.block line.stop (ending :: value)], .none)
    else
      let text := Glyph.text (Glyph.cutSpaces o.indent line.glyphs).2
      some ([], .fence o (text :: ending :: value) (endingText line))
  | .html kind start =>
    if line.isBlank && kind.endsAtBlank then Option.none
    else if kind.closedBy line.glyphs then some ([.bare .html ⟨start, line.stop⟩], .none)
    else some ([], leaf)
  | .indented start stop value waiting =>
    if pierced then Option.none
    else
      match Container.takeIndent? Glyph.tabWidth line.glyphs with
      | some rest =>
        some ([], .indented start line.stop (Glyph.text rest :: waiting ++ value) [endingText line])
      | Option.none =>
        if line.isBlank then some ([], .indented start stop value (endingText line :: waiting))
        else Option.none
  | .content lead (line₀ :: lines) (some cells) =>
    if !pierced && Table.isRule cells line.glyphs then
      some (Content.blocks lead lines, .table line₀.start line.stop [line₀])
    else Option.none
  | _ => Option.none

/-! ## Starts -/

/-- What a line starts. -/
inductive Start where
  | blank
  /-- Indented code. It is one line long when no other line can follow. -/
  | indented (rest : List Glyph) (single : Bool)
  | fence (opening : FenceOpening)
  | html (kind : Html.Block)
  | heading (text : List Glyph)
  | underline
  | thematicBreak
  /-- A row of the table that is open. -/
  | row
  /-- A line of text, with the number of cells if it can be the head of a table. -/
  | content (head : Option Nat)

/-- How a line meets what is open. -/
structure Meeting where
  /-- The line follows a line of text. -/
  interrupting : Bool
  /-- The line lacks the marks of open containers. -/
  lazy : Bool
  /-- The line opened containers. -/
  pierced : Bool

namespace Start

/-- Fenced code that a line starts. -/
def fence? (gs : List Glyph) : Option Start := (FenceOpening.read? gs).map .fence

/-- HTML that a line starts. -/
def html? (m : Meeting) (gs : List Glyph) : Option Start :=
  (Html.Block.open? (m.interrupting && !m.lazy) (Glyph.cutSpaces indentMax gs).2).map .html

/-- A heading that a line starts. -/
def heading? (gs : List Glyph) : Option Start := (Heading.text? gs).map .heading

/-- A thematic break. -/
def thematicBreak? (gs : List Glyph) : Option Start :=
  if isThematicBreak gs then some .thematicBreak else none

/-- What a line starts whose first glyph does not tell. -/
def ofAny (leaf : Leaf) (m : Meeting) (line : Line) : Start :=
  let gs := line.glyphs
  let code := if m.interrupting then none else Container.takeIndent? Glyph.tabWidth gs
  let underlines := leaf.acceptsLazy && !m.lazy && !m.pierced && isUnderline gs
  let inTable := match leaf with
    | .table _ _ _ => !m.pierced
    | _ => false
  if line.isBlank then .blank
  else if let some rest := code then .indented rest (m.lazy || m.pierced)
  else if let some s := (fence? gs).or ((html? m gs).or (heading? gs)) then s
  else if underlines then .underline
  else if isThematicBreak gs then .thematicBreak
  else if inTable then (if m.lazy then .content none else .row)
  else .content (Table.headSize? gs)

/-- What a line starts. A line whose first glyph marks something else holds no cells. -/
def ofLine (leaf : Leaf) (m : Meeting) (line : Line) : Start :=
  let gs := line.glyphs
  match gs.head?.map (·.char) with
  | none => .blank
  | some c =>
    if c = '#' then (heading? gs).getD (.content none)
    else if c = '`' || c = '~' then (fence? gs).getD (.content none)
    else if c = '*' || c = '_' then (thematicBreak? gs).getD (.content none)
    else if c = '<' then (html? m gs).getD (.content none)
    else if c = '$' || c = 'e' || c = 'i' || c = '{' then .content none
    else ofAny leaf m line

/-- Whether a line starts or continues a paragraph. -/
def isContent : Start → Bool
  | content _ => true
  | _ => false

/-- The blocks that a line makes on its own, and the leaf that is open behind it. -/
def leaf (s : Start) (line : Line) : List Block × Leaf :=
  match s with
  | blank => ([], .none)
  | indented rest single =>
    let leaf : Leaf := .indented line.start line.stop [Glyph.text rest] [endingText line]
    if single then (leaf.close (.cut line.stop), .none) else ([], leaf)
  | fence o => ([], .fence o [] (endingText line))
  | html kind =>
    if kind.closedAtOnce (Glyph.cutSpaces indentMax line.glyphs).2 then
      ([.bare .html ⟨line.start, line.stop⟩], .none)
    else ([], .html kind line.start)
  | heading text => ([.text .heading ⟨line.start, line.stop⟩ text], .none)
  | thematicBreak => ([.bare .thematicBreak ⟨line.start, line.stop⟩], .none)
  | underline => ([], .content (some line) [] Option.none)
  | row => ([], .table line.start line.stop [line])
  | content head => ([], .content Option.none [line] head)

end Start

/-- The blocks that are complete and the leaf that is open when a line meets a leaf. -/
def Leaf.meet (leaf : Leaf) (s : Start) (line : Line) (stop : Nat) : List Block × Leaf :=
  match leaf, s with
  | .content lead lines _, .content head => ([], .content lead (line :: lines) head)
  | .content lead lines _, .underline =>
    match Content.parts lead lines with
    | (defs, []) => (defs, .content (some line) [] Option.none)
    | (defs, g :: text) =>
      (defs ++ [.text .heading ⟨g.start, line.stop⟩ (g :: text)], .underlined)
  | .table start _ rows, .row => ([], .table start line.stop (line :: rows))
  | _, _ =>
    let (blocks, next) := s.leaf line
    (leaf.close (.cut stop) ++ blocks, next)

/-! ## Reading lines -/

/-- An open container with the blocks in it, reversed. -/
structure Frame where
  container : Container
  start : Nat
  blocks : List Block

/-- What was read so far. -/
structure Reader where
  /-- The blocks outside of all containers, reversed. -/
  blocks : List Block
  /-- The open containers, the innermost first. -/
  frames : List Frame
  leaf : Leaf
  /-- Whether the last line was text. -/
  interrupting : Bool
  /-- The place before the last line end, and the place behind it. -/
  stop : Nat
  next : Nat

namespace Reader

/-- Nothing was read. -/
def empty : Reader := ⟨[], [], .none, false, 0, 0⟩

/-- Puts blocks into the innermost container. -/
def push (r : Reader) (blocks : List Block) : Reader :=
  match r.frames with
  | [] => { r with blocks := blocks.reverse ++ r.blocks }
  | f :: frames => { r with frames := { f with blocks := blocks.reverse ++ f.blocks } :: frames }

/-- Closes the innermost containers, as many as asked for, at a place. -/
def closeFrames (stop : Nat) : (count : Nat) → Reader → Reader
  | 0, r => r
  | count + 1, r =>
    match r.frames with
    | [] => r
    | f :: frames =>
      let block := .container f.container ⟨f.start, stop⟩ f.blocks.reverse
      closeFrames stop count (push { r with frames } [block])

/-- Closes the leaf, which may wait for its end, and containers around it. -/
def flush (r : Reader) (count : Nat) : Reader :=
  let closing : Closing := .flushed r.stop r.next
  closeFrames (r.leaf.endAt closing) count
    { push r (r.leaf.close closing) with leaf := .none, interrupting := false }

/-- Takes off a line what the open containers ask for, from the outermost one on. Gives the
containers that go on, and the rest of the line. -/
def continued : List Frame → List Glyph → List Frame × List Glyph
  | [], gs => ([], gs)
  | f :: frames, gs =>
    match f.container.continue? gs with
    | none => ([], gs)
    | some (container, rest) =>
      let (more, rest) := continued frames rest
      ({ f with container } :: more, rest)

/-- Opens the containers that a line starts, up to `fuel` of them, the innermost first. -/
def opened : (fuel : Nat) → (interrupting : Bool) → (stop : Nat) → List Frame → List Glyph →
    List Frame × List Glyph
  | 0, _, _, frames, gs => (frames, gs)
  | fuel + 1, interrupting, stop, frames, gs =>
    match Container.open? interrupting gs with
    | none => (frames, gs)
    | some (container, rest) =>
      opened fuel false stop (⟨container, Glyph.startOf stop gs, []⟩ :: frames) rest

/-- Gives a line, without the marks of containers, to the leaf. `missing` is the number of open
containers that the line does not belong to. -/
def feed (r : Reader) (line : Line) (missing : Nat) (pierced : Bool) : Reader :=
  let lazy := missing ≠ 0
  let taken := if lazy then none else r.leaf.continue? line pierced
  match taken with
  | some (blocks, leaf) => { push r blocks with leaf, interrupting := false }
  | none =>
    let m : Meeting := ⟨r.interrupting && !pierced, lazy, pierced⟩
    let s := Start.ofLine r.leaf m line
    if lazy && !(r.leaf.acceptsLazy && s.isContent) then
      let r := closeFrames r.stop missing (push r (r.leaf.close (.cut r.stop)))
      let (blocks, leaf) := s.leaf line
      { push r blocks with leaf, interrupting := s.isContent }
    else
      let (blocks, leaf) := r.leaf.meet s line r.stop
      { push r blocks with leaf, interrupting := s.isContent }

/-- Reads a line. -/
def step (r : Reader) (line : Line) : Reader :=
  let (kept, rest) := continued r.frames.reverse line.glyphs
  let missing := r.frames.length - kept.length
  let r := { r with frames := r.frames.take missing ++ kept.reverse }
  let concrete := missing = 0 && r.leaf.isConcrete
  let (new, rest) :=
    if concrete then ([], rest)
    else opened (rest.length + 1) (missing = 0 && r.interrupting) line.stop [] rest
  let r :=
    if new.isEmpty then r.feed (line.cutTo rest) missing false
    else
      let r := r.flush missing
      { r with frames := new ++ r.frames }.feed (line.cutTo rest) 0 true
  { r with stop := line.stop, next := line.next }

/-- Closes everything that is still open. -/
def finish (r : Reader) : List Block := (r.flush r.frames.length).blocks.reverse

end Reader

/-- The blocks of a text. -/
def Block.ofLines (lines : List Line) : List Block := (lines.foldl Reader.step .empty).finish

end LiveDoc.Markdown
