import LiveDoc.Text.Span

/-!
# Markdown nodes

The structure of a Markdown text: blocks, and the inline elements inside them. Code and text have a
value of their own; every other element has a name and children.
-/

namespace LiveDoc.Markdown

open Text (Span)

/-- An element that is neither code nor text. -/
inductive Element where
  | root
  | blockquote
  | footnoteDefinition
  | list
  | listItem
  | paragraph
  | heading
  | thematicBreak
  | definition
  | html
  | table
  | tableRow
  | tableCell
  | emphasis
  | strong
  | delete
  | link
  | linkReference
  | image
  | imageReference
  | footnoteReference
  | lineBreak
  deriving DecidableEq, Repr

/-- The name of an element. -/
def Element.name : Element → String
  | root => "root"
  | blockquote => "blockquote"
  | footnoteDefinition => "footnoteDefinition"
  | list => "list"
  | listItem => "listItem"
  | paragraph => "paragraph"
  | heading => "heading"
  | thematicBreak => "thematicBreak"
  | definition => "definition"
  | html => "html"
  | table => "table"
  | tableRow => "tableRow"
  | tableCell => "tableCell"
  | emphasis => "emphasis"
  | strong => "strong"
  | delete => "delete"
  | link => "link"
  | linkReference => "linkReference"
  | image => "image"
  | imageReference => "imageReference"
  | footnoteReference => "footnoteReference"
  | lineBreak => "break"

/-- A node. Its span is its place in the source, if it was read from one. -/
inductive Node where
  /-- A code block. A fenced one may name a language, and may say more behind it. -/
  | code (span : Option Span) (language details : Option String) (value : String)
  | inlineCode (span : Option Span) (value : String)
  | text (span : Option Span) (value : String)
  | element (element : Element) (span : Option Span) (children : List Node)
  deriving Repr

/-- The place of a node in the source. -/
def Node.span : Node → Option Span
  | code s _ _ _ => s
  | inlineCode s _ => s
  | text s _ => s
  | element _ s _ => s

end LiveDoc.Markdown
