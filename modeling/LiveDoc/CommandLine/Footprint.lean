import LiveDoc.CommandLine.Effect

/-!
# Footprints

The paths that a call of the program may look at, so that they can be read before the work starts.
There are two steps, because what a document mentions is known only when it was read:

* `Invocation.inputs` are the paths that follow from the arguments alone;
* `Invocation.mentions` are the paths that the texts in the templates of the document lead to. A
  text may be a reference to a source, and every word of a text may be a file that a command reads.
-/

namespace LiveDoc

namespace Expr

mutual

/-- The texts in an expression, from left to right. -/
def strings : Expr → List String
  | literal (.string s) => [s]
  | literal _ | name _ => []
  | call _ positional keywords => stringsOf positional ++ stringsOfKeywords keywords

/-- The texts in several expressions. -/
def stringsOf : List Expr → List String
  | [] => []
  | e :: rest => e.strings ++ stringsOf rest

/-- The texts in keyword arguments. -/
def stringsOfKeywords : List (String × Expr) → List String
  | [] => []
  | (_, e) :: rest => e.strings ++ stringsOfKeywords rest

end

end Expr

/-- The texts in the templates of a document. A template that cannot be read has none. -/
def Document.strings (d : Document) : List String :=
  (d.root.fences.filterMap Tree.body?).flatMap fun body =>
    match Expr.parse body with
    | .ok e => e.strings
    | .error _ => []

namespace CommandLine

/-- Whether a character separates the words of a command. -/
def separates (c : Char) : Bool := Text.isBlank c || "<>|&;()\"'".toList.contains c

/-- The words of a command. -/
def commandWords (command : String) : List String :=
  (Text.words (command.toList.map fun c => if separates c then ' ' else c)).map String.ofList

/-- The paths that a text may lead to, as a reference to a source or as a command. -/
def pathsOf (c : Config) (text : String) : List String :=
  let sources := match Reference.parse text with
    | .ok r => c.roots.attempts r
    | .error _ => []
  let directory := c.workingDirectory.getD ""
  sources ++ (commandWords text).map (Path.join directory)

namespace Invocation

/-- The paths that follow from the arguments. Writing a file looks at its directory. -/
def inputs (i : Invocation) : List String :=
  let target (path : String) : List String := [path, Path.directory path]
  let written := match i.task with
    | .render output => (output.map target).getD []
    | .check output _ => target output
  i.document :: written ++ i.config.toList ++ Config.candidates

/-- The paths that the document mentions, as far as the configuration and the document can be
read. -/
def mentions (i : Invocation) (files : FileTree) : List String :=
  match i.configuration files, files.readText i.document with
  | .ok c, .ok source =>
    c.workingDirectory.toList ++ (Document.ofMarkdown source).strings.flatMap (pathsOf c)
  | _, _ => []

end Invocation

end CommandLine

end LiveDoc
