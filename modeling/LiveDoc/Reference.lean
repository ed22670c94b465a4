import LiveDoc.Files
import LiveDoc.Item.Source
import LiveDoc.Text.Letter

/-!
# Source references

A reference `module.path:Name` names a top-level item of a module. The module is looked for under
the source roots, at the paths where a module file can be; the item is then cut out of the file.

* `Reference.parse` accepts exactly one colon between identifiers joined by points and an
  identifier;
* `candidates` are the relative paths of a module, in the order they are tried;
* `Roots.resolve` goes through the roots, and for each root through the candidates.
-/

namespace LiveDoc

/-- A reference to a top-level item. -/
structure Reference where
  module : String
  object : String
  deriving DecidableEq, Repr

namespace Reference

/-- Reads a reference. Blanks around the module and around the name do not count. -/
def parse (text : String) : Except Error Reference :=
  match Text.split ':' text.toList with
  | [module, object] =>
    let module := Text.trim module
    let object := Text.trim object
    if (Text.split '.' module).all Text.isIdentifier && Text.isIdentifier object then
      .ok ⟨String.ofList module, String.ofList object⟩
    else .error (.invalidReference text)
  | _ => .error (.invalidReference text)

/-- The names that a module path is made of. -/
def segments (r : Reference) : List String :=
  (Text.split '.' r.module.toList).map String.ofList

/-- A path of names. -/
def pathOf (names : List String) : String := "/".intercalate names

/-- The relative paths that may hold the module: the file, the directory with `mod.rs` or `lib.rs`,
the crate of that name, and, when the path has several names, the file or the directory inside the
crate named first. -/
def candidates (r : Reference) : List String :=
  let path := pathOf r.segments
  let own := [path ++ ".rs", path ++ "/mod.rs", path ++ "/lib.rs", path ++ "/src/lib.rs"]
  match r.segments with
  | first :: second :: rest =>
    let inner := pathOf (first :: "src" :: second :: rest)
    own ++ [inner ++ ".rs", inner ++ "/mod.rs"]
  | _ => own

end Reference

/-- The directories in which modules are looked for, in order. -/
structure Roots where
  directories : List String
  deriving DecidableEq, Repr

namespace Roots

/-- The roots when nothing is configured. -/
def standard : Roots := ⟨["src", "."]⟩

/-- The paths tried for a reference, in order. -/
def attempts (roots : Roots) (r : Reference) : List String :=
  roots.directories.flatMap fun root => r.candidates.map (Path.join root)

/-- The first path tried that is a file, according to `isFile`. -/
def resolve (roots : Roots) (isFile : String → Bool) (r : Reference) : Except Error String :=
  match (roots.attempts r).find? isFile with
  | some path => .ok path
  | none => .error (.moduleNotFound r.module (roots.attempts r))

/-- The source of the item that a reference names, or its declaration only. -/
def extract (roots : Roots) (files : FileTree) (reference : String) (declarationOnly : Bool) :
    Except Error String :=
  match Reference.parse reference with
  | .error e => .error e
  | .ok r =>
    match roots.resolve files.isFile r with
    | .error e => .error e
    | .ok path =>
      match files.readText path with
      | .error e => .error e
      | .ok source =>
        match Item.sourceOf? source.toList r.object with
        | none => .error (.objectNotFound r.module r.object)
        | some item =>
          if declarationOnly then (Item.stripBody item).map String.ofList
          else .ok (String.ofList item)

end Roots

end LiveDoc
