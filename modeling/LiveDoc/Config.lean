import LiveDoc.Layout.Document
import LiveDoc.Reference
import LiveDoc.Toml.Document

/-!
# Configuration

A configuration file has three sections: how documents are rendered, where sources are looked for,
and how commands are run. What it does not say has a standard value, and names that mean nothing
are ignored. A section may be written as an array of its values in order as well.

Paths in the file are seen from the directory it belongs to (`Config.relativeTo`).
-/

namespace LiveDoc

/-- What can be configured. -/
structure Config where
  layout : Layout.Options
  template : Template.Options
  roots : Roots
  /-- Whether a command that fails is an error. -/
  strict : Bool
  /-- The directory in which commands are run. -/
  workingDirectory : Option String
  deriving DecidableEq, Repr

namespace Config

/-- What holds when nothing is configured. -/
def standard : Config := ⟨.standard, .standard, .standard, false, none⟩

/-! ## Reading values -/

/-- A section: its values by name, or in order. -/
inductive Section where
  | named (entries : List (String × Toml.Value))
  | listed (elements : List Toml.Value)

/-- Reads a section. A date has no values that mean anything. -/
def Section.ofValue? : Toml.Value → Option Section
  | .table entries => some (.named entries)
  | .array elements => some (.listed elements)
  | .moment _ => some (.named [])
  | _ => none

/-- The value of a name in a section. When values are listed, its index counts. -/
def Section.get? (name : String) (index : Nat) : Section → Option Toml.Value
  | .named entries => Store.get? name entries
  | .listed elements => elements[index]?

/-- A boolean. -/
def boolean? : Toml.Value → Option Bool
  | .boolean b => some b
  | _ => none

/-- A text. -/
def text? : Toml.Value → Option String
  | .string s => some s
  | _ => none

/-- A number of at most 64 bits. -/
def natural? : Toml.Value → Option Nat
  | .integer n => if 0 ≤ n && n < (UInt64.size : Int) then some n.toNat else none
  | _ => none

/-- A list of texts. -/
def texts? : Toml.Value → Option (List String)
  | .array elements => elements.mapM text?
  | _ => none

/-- The value of a name, or `missing` when the section does not say it. -/
def Section.read {α : Type} (s : Section) (name : String) (index : Nat)
    (decode : Toml.Value → Option α) (missing : α) : Option α :=
  match s.get? name index with
  | some v => decode v
  | none => some missing

/-- A section of a file, empty when the file does not have it. -/
def section? (file : List (String × Toml.Value)) (name : String) : Option Section :=
  match Store.get? name file with
  | some v => Section.ofValue? v
  | none => some (.named [])

/-- The configuration that a file describes. -/
def ofEntries? (file : List (String × Toml.Value)) : Option Config := do
  let render ← section? file "render"
  let width ← render.read "max_line_length" 0 (fun v => (natural? v).map some) none
  let normalizes ← render.read "normalize_whitespace" 1 boolean? false
  let tag ← render.read "fence_tag" 2 (fun v => (text? v).map some) none
  let exposes ← render.read "expose_document" 3 boolean? true
  let source ← section? file "source"
  let directories ← source.read "roots" 0 texts? Roots.standard.directories
  let commands ← section? file "commands"
  let strict ← commands.read "strict" 0 boolean? false
  let directory ← commands.read "working_dir" 1 (fun v => (text? v).map some) none
  return ⟨⟨width, normalizes⟩, ⟨tag, exposes⟩, ⟨directories⟩, strict, directory⟩

/-- Reads a configuration. -/
def parse (source : String) : Except Error Config :=
  match (Toml.parse? source).bind ofEntries? with
  | some c => .ok c
  | none => .error .configuration

/-! ## Finding the file -/

/-- The configuration with its paths seen from a directory. Commands run there unless they are told
otherwise. -/
def relativeTo (base : String) (c : Config) : Config :=
  { c with
    roots := ⟨c.roots.directories.map (Path.join base)⟩
    workingDirectory := some ((c.workingDirectory.map (Path.join base)).getD base) }

/-- The paths at which a configuration may be, the first one first. -/
def candidates : List String := ["writeme.toml", ".writeme.toml", ".config/writeme.toml"]

/-- The path of the configuration of a directory. -/
def find? (isFile : String → Bool) (root : String) : Option String :=
  (candidates.map (Path.join root)).find? isFile

/-- Reads the configuration in a file, with its paths seen from a directory. -/
def loadFile (files : FileTree) (path base : String) : Except Error Config :=
  match files.readText path with
  | .error e => .error e
  | .ok text => (parse text).map (relativeTo base)

/-- Reads the configuration of a directory, if there is one. -/
def load (files : FileTree) (root : String) : Except Error (Option Config) :=
  match find? files.isFile root with
  | none => .ok none
  | some path => (loadFile files path root).map some

end Config

end LiveDoc
