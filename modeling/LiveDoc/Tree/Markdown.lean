import LiveDoc.Markdown.Document
import LiveDoc.Tree

/-!
# Trees of Markdown texts

`Tree.ofNode` keeps of Markdown what templates and formatting need. Fenced code becomes a fence with
one text, the body. Inline code and indented code have one text as well. Every other element keeps
its name and its children.
-/

namespace LiveDoc

open Markdown (Node)
open Text (Span)

namespace Tree

/-- Whether the source of a code block starts, behind spaces, with the marker of a fence. -/
def isFenced (source : List Char) (span : Option Span) : Bool :=
  match span.bind (Text.slice source) with
  | none => false
  | some opening =>
    let opening := opening.dropWhile (· = ' ')
    ['`', '`', '`'].isPrefixOf opening || ['~', '~', '~'].isPrefixOf opening

/-- What stands behind the marker of a fence. -/
def infoText (language details : Option String) : String :=
  match language, details with
  | some l, some d => l ++ " " ++ d
  | some l, none => l
  | none, some d => d
  | none, none => ""

mutual

/-- The tree of a node of a text. -/
def ofNode (source : List Char) : Node → Tree
  | .code span language details value =>
    let kind : Kind :=
      if isFenced source span then .fence (.ofParsed language (infoText language details) value)
      else .other "code"
    mk kind span [leaf value none]
  | .inlineCode span value => mk (.other "inlineCode") span [leaf value none]
  | .text span value => leaf value span
  | .element .root span children => mk .document span (ofNodes source children)
  | .element e span children => mk (.other e.name) span (ofNodes source children)

/-- The trees of several nodes. -/
def ofNodes (source : List Char) : List Node → List Tree
  | [] => []
  | n :: rest => ofNode source n :: ofNodes source rest

end

/-- The tree of a Markdown text. -/
def ofMarkdown (source : List Char) : Tree := ofNode source (Node.ofMarkdown source)

end Tree

/-- Reads a document. -/
def Document.ofMarkdown (source : String) : Document := ⟨source, Tree.ofMarkdown source.toList⟩

end LiveDoc
