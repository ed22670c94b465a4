import LiveDoc.Expr.Eval

/-!
# Templates

The fences of a document are templates: the body of a fence is an expression, and what it evaluates
to takes its place.

* `fill` walks the nodes of a tree in document order. A fence waits for the first text behind it;
  another fence takes its turn.
* Every template sees the document as it was before the walk.
* A template that fails ends the walk. The changes made before it stay.
-/

namespace LiveDoc

namespace Template

/-- Which fences are templates, and what they see. -/
structure Options where
  /-- The first word that the info text of a template must have. -/
  tag : Option String
  /-- Whether templates see the document. -/
  exposeDocument : Bool
  deriving DecidableEq, Repr

/-- Every fence is a template and sees the document. -/
def Options.standard : Options := ⟨none, true⟩

/-- Whether a fence is a template. -/
def Options.accepts (options : Options) (fence : Fence) : Bool :=
  match options.tag with
  | none => true
  | some tag => (Text.words fence.info.toList).head? = some tag.toList

/-- The name under which templates see the document. -/
def documentName : String := "document"

/-- The names that templates of a tree see. -/
def environment (ns : Namespace) (options : Options) (root : Tree) : Environment :=
  if options.exposeDocument then
    ns.export.insertGlobal documentName (.document ⟨0, root⟩)
  else ns.export

/-- Evaluates a template, which must give a rendering. -/
def evaluate (expression : String) (env : Environment) : Except Error Rendering :=
  match Expr.evaluate expression env with
  | .error e => .error e
  | .ok value =>
    match value.rendering? with
    | some rendering => .ok rendering
    | none => .error (.contractViolation (Text.trimmed expression) value.type)

/-- Gives a text another content. -/
def setText (content : String) (t : Tree) : Tree :=
  match t.kind with
  | .text _ => t.withKind (.text content)
  | _ => t

/-- Gives a fence another language, which becomes its info text as well. -/
def setLanguage (language : String) (t : Tree) : Tree :=
  match t.kind with
  | .fence f => t.withKind (.fence { f with language := some language, info := language })
  | _ => t

/-- Puts a rendering in the place of a template. -/
def apply (root : Tree) (text fence : List Nat) (r : Rendering) : Tree :=
  let root := root.update (setText r.content) text
  match r.display.language? with
  | some language => root.update (setLanguage language) fence
  | none => root

/-- Visits nodes. `waiting` is the path of a template whose body was not seen yet. -/
def visit (options : Options) (env : Environment) :
    (paths : List (List Nat)) → (waiting : Option (List Nat)) → Tree → Tree × Option Error
  | [], _, root => (root, none)
  | path :: rest, waiting, root =>
    match (root.get? path).map Tree.kind with
    | some (.fence f) => visit options env rest (if options.accepts f then some path else none) root
    | some (.text content) =>
      match waiting with
      | none => visit options env rest none root
      | some fence =>
        if Text.isBlankText content.toList then visit options env rest none root
        else
          match evaluate content env with
          | .error e => (root, some e)
          | .ok r => visit options env rest none (apply root path fence r)
    | _ => visit options env rest waiting root

/-- Evaluates the templates of a tree: the tree with what they gave, and the error that ended the
walk if there was one. -/
def fill (ns : Namespace) (options : Options) (root : Tree) : Tree × Option Error :=
  if root.children.isEmpty then (root, none)
  else visit options (environment ns options root) root.paths none root

end Template

/-- Evaluates the templates of a document. -/
def Document.fill (d : Document) (ns : Namespace) (options : Template.Options) :
    Except Error Document :=
  match Template.fill ns options d.root with
  | (root, none) => .ok { d with root }
  | (_, some e) => .error e

end LiveDoc
