import LiveDoc.Layout.Fence
import LiveDoc.Layout.Words
import LiveDoc.Template
import LiveDoc.Tree.Markdown

/-!
# Writing documents

A document is written by editing its source. Fences that were changed are written anew, and so are
the paragraphs outside of all other blocks when they are to be laid out. Everything else stays as
it is, byte for byte.
-/

namespace LiveDoc

open Text (Span)

namespace Layout

/-- How paragraphs are laid out. -/
structure Options where
  /-- The most characters on a line, where words allow it. -/
  width : Option Nat
  /-- Whether there are single spaces between words. -/
  normalizes : Bool
  deriving DecidableEq, Repr

/-- Paragraphs stay as they are. -/
def Options.standard : Options := ⟨none, false⟩

/-- A new text for a span of the source. -/
structure Edit where
  span : Span
  content : List Char
  deriving DecidableEq, Repr

/-- The line end of a text: that of its first line. `last` is the character before. -/
def lineEnding (last : Option Char) : List Char → List Char
  | [] => ['\n']
  | c :: rest =>
    if c = '\n' then (if last = some '\r' then ['\r', '\n'] else ['\n'])
    else lineEnding (some c) rest

/-- The edit that writes a fence, if it was changed. -/
def fenceEdit? (source ending : List Char) (t : Tree) : Option Edit :=
  match t.fence?, t.span with
  | some fence, some span =>
    let body := t.body?.getD ""
    if fence.isModified body then
      (Text.slice source span).map fun old =>
        ⟨span, renderFence old fence body.toList ending⟩
    else none
  | _, _ => none

/-- The places of code in a paragraph, counted from its start. -/
def codeSpans (start : Nat) (paragraph : Tree) : List Span :=
  (paragraph.nodes.filter (·.isNamed "inlineCode")).filterMap fun t =>
    t.span.map fun s => ⟨s.start - start, s.stop - start⟩

/-- The text of a paragraph, laid out. A paragraph with hard breaks is never wrapped. -/
def formatted? (options : Options) (ending old : List Char) (start : Nat) (paragraph : Tree) :
    Option (List Char) :=
  let kept := codeSpans start paragraph
  let hasBreak := paragraph.nodes.any (·.isNamed "break")
  match options.width with
  | some width =>
    if !hasBreak then some (wrap kept width ending old)
    else if options.normalizes then some (normalize kept ending old)
    else none
  | none => if options.normalizes then some (normalize kept ending old) else none

/-- The edit that lays out a paragraph, if that changes it. -/
def paragraphEdit? (options : Options) (source ending : List Char) (t : Tree) : Option Edit :=
  if t.isNamed "paragraph" then
    t.span.bind fun span =>
      (Text.slice source span).bind fun old =>
        (formatted? options ending old span.start t).bind fun content =>
          if content = old then none else some ⟨span, content⟩
  else none

/-- Puts an edit before those that start earlier or at the same place. -/
def insertEdit (e : Edit) : List Edit → List Edit
  | [] => [e]
  | f :: rest => if f.span.start ≤ e.span.start then e :: f :: rest else f :: insertEdit e rest

/-- The edits from the last one to the first. Those that start at the same place keep their
order. -/
def lastFirst (edits : List Edit) : List Edit := edits.foldr insertEdit []

/-- Applies edits one after the other. One that ends behind the text is dropped. -/
def applyEdits (text : List Char) (edits : List Edit) : List Char :=
  edits.foldl (fun text e =>
    if e.span.stop ≤ Text.byteLength text then Text.splice text e.span e.content else text) text

end Layout

/-- All edits that the writing of a document makes. -/
def Document.edits (d : Document) (options : Layout.Options) : List Layout.Edit :=
  let source := d.source.toList
  let ending := Layout.lineEnding none source
  d.root.nodes.filterMap (Layout.fenceEdit? source ending) ++
    d.root.children.filterMap (Layout.paragraphEdit? options source ending)

/-- Writes a document. -/
def Document.render (d : Document) (options : Layout.Options) : String :=
  String.ofList (Layout.applyEdits d.source.toList (Layout.lastFirst (d.edits options)))

/-- Reads a text, evaluates its templates, and writes the result. -/
def Document.renderMarkdown (ns : Namespace) (template : Template.Options) (layout : Layout.Options)
    (source : String) : Except Error String :=
  match (Document.ofMarkdown source).fill ns template with
  | .ok d => .ok (d.render layout)
  | .error e => .error e

end LiveDoc
