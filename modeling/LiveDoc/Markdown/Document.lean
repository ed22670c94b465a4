import LiveDoc.Markdown.Block
import LiveDoc.Markdown.Inline

/-!
# Markdown documents

`Node.ofMarkdown` reads a text. Blocks are found first; running text is read when the labels of all
targets and footnotes are known, since a label may be defined behind its use.
-/

namespace LiveDoc.Markdown

open Text (Span)

mutual

/-- The labels that a block defines. -/
def Block.labels : Block → Labels
  | .container (.footnote label) _ children =>
    let inner := labelsOf children
    { inner with footnotes := label :: inner.footnotes }
  | .container _ _ children => labelsOf children
  | .definition label _ => ⟨[label], []⟩
  | _ => ⟨[], []⟩

/-- The labels that blocks define. -/
def labelsOf : List Block → Labels
  | [] => ⟨[], []⟩
  | b :: rest =>
    let own := b.labels
    let others := labelsOf rest
    ⟨own.targets ++ others.targets, own.footnotes ++ others.footnotes⟩

end

/-- Puts a node in front of others. Items with the same marker in a row are kept together. -/
def addItem (marker : Option Char) (n : Node) :
    List (Option Char × List Node) → List (Option Char × List Node)
  | [] => [(marker, [n])]
  | (m, ns) :: rest =>
    if m = marker && m.isSome then (m, n :: ns) :: rest else (marker, [n]) :: (m, ns) :: rest

/-- The node for a group: a list of items, or a node on its own. -/
def groupNodes : Option Char × List Node → List Node
  | (none, ns) => ns
  | (some _, ns) =>
    let start := (ns.head?.bind Node.span).map Span.start
    let stop := (ns.getLast?.bind Node.span).map Span.stop
    [.element .list (some ⟨start.getD 0, stop.getD 0⟩) ns]

/-- The text of glyphs in which only escapes and references are special. -/
def decodedText (gs : List Glyph) : String := String.ofList (Escape.decoded gs)

/-- The node of a row of a table. -/
def rowNode (labels : Labels) (row : Span × List Table.Cell) : Node :=
  let cell (c : Table.Cell) : Node :=
    .element .tableCell (some c.span) (Inline.cellNodes labels c.text)
  .element .tableRow (some row.1) (row.2.map cell)

/-- The node of a paragraph or a heading. A paragraph that starts an item may be a task. -/
def textNode (labels : Labels) (first : Bool) (element : Element) (span : Span)
    (glyphs : List Glyph) : Node :=
  match if first && element = .paragraph then Inline.task? glyphs else none with
  | some rest =>
    let (start, nodes) :=
      Inline.dropBlank span.start (Inline.nodesAfter labels false (some ']') rest)
    .element element (some ⟨start, span.stop⟩) nodes
  | none => .element element (some span) (Inline.nodes labels glyphs)

mutual

/-- The node of a block. `first` tells whether it is the first one in an item. -/
def Block.node (labels : Labels) (first : Bool) : Block → Node
  | .container c span children =>
    match c with
    | .quote =>
      .element .blockquote (some span) ((groupsOf labels false children).flatMap groupNodes)
    | .item _ _ _ =>
      .element .listItem (some span) ((groupsOf labels true children).flatMap groupNodes)
    | .footnote _ =>
      .element .footnoteDefinition (some span) ((groupsOf labels false children).flatMap groupNodes)
  | .text element span glyphs => textNode labels first element span glyphs
  | .bare element span => .element element (some span) []
  | .definition _ span => .element .definition (some span) []
  | .code span language details value =>
    .code (some span) (language.map decodedText) (details.map decodedText) (String.ofList value)
  | .table span rows => .element .table (some span) (rows.map (rowNode labels))

/-- The nodes of blocks, items of the same list together. -/
def groupsOf (labels : Labels) (first : Bool) : List Block → List (Option Char × List Node)
  | [] => []
  | b :: rest =>
    let marker := match b with
      | .container (.item marker _ _) _ _ => some marker
      | _ => none
    addItem marker (b.node labels first) (groupsOf labels false rest)

end

/-- Reads a Markdown text. -/
def Node.ofMarkdown (source : List Char) : Node :=
  let blocks := Block.ofLines (Line.ofText source)
  .element .root (some ⟨0, Text.byteLength source⟩)
    ((groupsOf (labelsOf blocks) false blocks).flatMap groupNodes)

end LiveDoc.Markdown
