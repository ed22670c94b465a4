import LiveDoc.Binary64.Decimal
import LiveDoc.Text.Quoted
import LiveDoc.Tree

/-!
# Values

What expressions evaluate to. A `Rendering` is what a template must produce: a content, and
whether it is to be shown as code of some language.

* `Value.same` is equality as users see it: floating point numbers that are `near` count as equal,
  and two documents are equal only when they are the same snapshot.
* `Value.display` is the text of a value in messages and listings.
-/

namespace LiveDoc

/-- How a rendering is shown. -/
inductive Display where
  /-- Plain content: the fence keeps its language. -/
  | inline
  /-- Code of a language, which becomes the language of the fence. -/
  | code (language : String)
  deriving DecidableEq, Repr

/-- The language that a rendering gives its fence. -/
def Display.language? : Display → Option String
  | inline => none
  | code language => some language

/-- The result of evaluating a template. -/
structure Rendering where
  content : String
  display : Display
  deriving DecidableEq, Repr

/-- Content that leaves the language of its fence alone. -/
def Rendering.inline (content : String) : Rendering := ⟨content, .inline⟩

/-- Content shown as code of a language. -/
def Rendering.code (content language : String) : Rendering := ⟨content, .code language⟩

/-- Content shown as the output of a command. -/
def Rendering.console (content : String) : Rendering := .code content "console"

/-- A document tree at some moment. Snapshots are told apart by their handles. -/
structure Snapshot where
  handle : Nat
  tree : Tree
  deriving DecidableEq, Repr

/-- A value of the expression language. -/
inductive Value where
  | none
  | bool (b : Bool)
  | int (n : Int64)
  | float (x : Binary64)
  | string (s : String)
  | rendering (r : Rendering)
  | document (d : Snapshot)
  deriving DecidableEq

/-- The types of values. -/
inductive ValueType where
  | none
  | boolean
  | integer
  | float
  | string
  | rendering
  | document
  deriving DecidableEq, Repr

/-- The name of a type in messages. -/
def ValueType.name : ValueType → String
  | none => "none"
  | boolean => "a boolean"
  | integer => "an integer"
  | float => "a float"
  | string => "a string"
  | rendering => "a rendering result"
  | document => "a document"

namespace Value

/-- The type of a value. -/
def type : Value → ValueType
  | none => .none
  | bool _ => .boolean
  | int _ => .integer
  | float _ => .float
  | string _ => .string
  | rendering _ => .rendering
  | document _ => .document

/-- The text that a value is. -/
def string? : Value → Option String
  | string s => some s
  | _ => Option.none

/-- The truth value that a value is. -/
def bool? : Value → Option Bool
  | bool b => some b
  | _ => Option.none

/-- The integer that a value is. -/
def int? : Value → Option Int64
  | int n => some n
  | _ => Option.none

/-- The tree of the document that a value is. -/
def document? : Value → Option Tree
  | document d => some d.tree
  | _ => Option.none

/-- The rendering that a value is. -/
def rendering? : Value → Option Rendering
  | rendering r => some r
  | _ => Option.none

/-- Equality as users see it. -/
def same : Value → Value → Bool
  | none, none => true
  | bool a, bool b => a = b
  | int a, int b => a = b
  | float a, float b => a.near b
  | string a, string b => a = b
  | rendering a, rendering b => a = b
  | document a, document b => a.handle = b.handle
  | _, _ => false

/-- The text of a value in messages and listings. Texts and renderings are quoted. -/
def display : Value → String
  | none => "none"
  | bool b => if b then "true" else "false"
  | int n => toString n.toInt
  | float x => String.ofList x.text
  | string s => String.ofList (Text.quoted s.toList)
  | rendering r => String.ofList (Text.quoted r.content.toList)
  | document _ => "<document>"

end Value

end LiveDoc
