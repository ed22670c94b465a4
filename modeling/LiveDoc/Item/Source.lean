import LiveDoc.Error
import LiveDoc.Item.Scan
import LiveDoc.Text.Blank
import LiveDoc.Text.Lines

/-!
# Source of items

The source text of an item, and its declaration with the body left out: the header, then a body
that holds the inner doc comments and a placeholder.
-/

namespace LiveDoc.Item

/-- What stands for a body that is left out. -/
def placeholder : List Char := "...".toList

/-- The indentation inside a body that is left out. -/
def bodyIndent : List Char := "    ".toList

/-- The text of a span, nothing if it cannot be cut out. -/
def cut (source : List Char) (span : Text.Span) : List Char := (Text.slice source span).getD []

/-- The first item that has a name. -/
def find? (name : String) (items : List Item) : Option Item :=
  items.find? fun item => item.name = some name

/-- The source of the first item of a name, with a line feed behind it. -/
def sourceOf? (source : List Char) (name : String) : Option (List Char) :=
  (find? name (scan source)).map fun item => cut source item.span ++ ['\n']

/-- The first line that is not blank, without the blanks around it. -/
def firstLine (source : List Char) : List Char :=
  (((Text.lines source).map Text.trim).find? (!·.isEmpty)).getD []

/-- A declaration: a header, then a body of inner doc comments and the placeholder. -/
def writeDeclaration (header : List Char) (docs : List (List Char)) : List Char :=
  header ++ " \x7b\n".toList ++ docs.flatMap (fun doc => bodyIndent ++ doc ++ ['\n']) ++
    bodyIndent ++ placeholder ++ "\n\x7d\n".toList

/-- The declaration of an item with the body left out, if it has one that can be. -/
def declaration? (source : List Char) (item : Item) : Option (List Char) :=
  if item.kind.hasStrippableBody then
    item.body.map fun body =>
      writeDeclaration (Text.trimEnd (cut source ⟨item.span.start, body.start⟩))
        (item.innerDocs.map (cut source))
  else none

/-- The declaration of the first item of a text. -/
def stripBody (source : List Char) : Except Error (List Char) :=
  match (scan source).head?.bind (declaration? source) with
  | some text => .ok text
  | none => .error (.unsupportedDeclaration (String.ofList (firstLine source)))

end LiveDoc.Item
