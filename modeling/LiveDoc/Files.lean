import LiveDoc.Error
import LiveDoc.Text.Lines

/-!
# Files

The part of the outside world that can be read and written: a tree of files and directories below
the current directory. Paths are texts. They are joined as texts and looked up step by step: an
empty name and `.` stay where they are, `..` goes up, and every name on the way must be a
directory.

* `locate?` finds the place a path leads to, whether or not something is there;
* `readText` and `write` fail with the one error that the outside world gives.
-/

namespace LiveDoc

/-! ## Paths -/

namespace Path

/-- Whether a path starts at the root of the file system. -/
def isAbsolute (path : String) : Bool := path.toList.head? = some '/'

/-- A path seen from a directory. An absolute path stays as it is, and an empty directory adds
nothing. -/
def join (base path : String) : String :=
  if isAbsolute path then path
  else if base.isEmpty then path
  else if Text.endsWith '/' base.toList then base ++ path
  else base ++ "/" ++ path

/-- The names on a path. -/
def steps (path : String) : List String := (Text.split '/' path.toList).map String.ofList

/-- The directory that a path names something in; the current one for a single name. -/
def directory (path : String) : String :=
  let isIdle (step : String) : Bool := step = "" || step = "."
  let kept := ((steps path).reverse.dropWhile isIdle).tail.dropWhile isIdle
  if kept.isEmpty then (if isAbsolute path && (steps path).any (!isIdle ·) then "/" else ".")
  else "/".intercalate kept.reverse

end Path

/-! ## The tree -/

/-- What can be at a place. -/
inductive Entry where
  | file (bytes : ByteArray)
  | directory

/-- A place: the names from the root of the file system. -/
abbrev Location := List String

/-- The files below the current directory, which lies at `home`. -/
structure FileTree where
  home : Location
  entries : List (Location × Entry)

namespace FileTree

/-- Nothing but the current directory. -/
def empty (home : Location) : FileTree := ⟨home, []⟩

/-- What is at a place. The directories down to the current one are always there. -/
def entry? (files : FileTree) (place : Location) : Option Entry :=
  if place.isPrefixOf files.home then some .directory
  else (files.entries.find? fun e => e.1 = place).map (·.2)

/-- Whether a directory is at a place. -/
def hasDirectory (files : FileTree) (place : Location) : Bool :=
  match files.entry? place with
  | some .directory => true
  | _ => false

/-- Follows names from a place. Only a directory can be left. -/
def follow (files : FileTree) : Location → List String → Option Location
  | place, [] => some place
  | place, step :: rest =>
    if files.hasDirectory place then
      if step = "" || step = "." then files.follow place rest
      else if step = ".." then files.follow place.dropLast rest
      else files.follow (place ++ [step]) rest
    else none

/-- The place a path leads to from a directory. The empty path leads nowhere. -/
def locate? (files : FileTree) (directory : Location) (path : String) : Option Location :=
  if path.isEmpty then none
  else files.follow (if Path.isAbsolute path then [] else directory) (Path.steps path)

/-- The bytes of the file at a path from a directory. -/
def bytesFrom? (files : FileTree) (directory : Location) (path : String) : Option ByteArray :=
  match (files.locate? directory path).bind files.entry? with
  | some (.file bytes) => some bytes
  | _ => none

/-- The bytes of the file at a path from the current directory. -/
def bytes? (files : FileTree) (path : String) : Option ByteArray :=
  files.bytesFrom? files.home path

/-- Whether a path leads to a file. -/
def isFile (files : FileTree) (path : String) : Bool := (files.bytes? path).isSome

/-- The directory that a path leads to. -/
def directory? (files : FileTree) (path : String) : Option Location :=
  (files.locate? files.home path).bind fun place =>
    if files.hasDirectory place then some place else none

/-- The text of the file at a path, if it is one and holds UTF-8. -/
def readText (files : FileTree) (path : String) : Except Error String :=
  match (files.bytes? path).bind String.fromUTF8? with
  | some text => .ok text
  | none => .error .io

/-- Puts something at a place, over whatever is there. -/
def put (files : FileTree) (place : Location) (e : Entry) : FileTree :=
  if files.entries.any (·.1 = place) then
    { files with
      entries := files.entries.map fun old => if old.1 = place then (place, e) else old }
  else { files with entries := files.entries ++ [(place, e)] }

/-- Writes a file at a place below a directory that is there, unless a directory is there. -/
def writeAt (files : FileTree) (place : Location) (bytes : ByteArray) : Option FileTree :=
  if place.isEmpty || files.hasDirectory place || !files.hasDirectory place.dropLast then none
  else some (files.put place (.file bytes))

/-- Writes a text to the file at a path. -/
def write (files : FileTree) (path text : String) : Except Error FileTree :=
  match (files.locate? files.home path).bind fun place => files.writeAt place text.toUTF8 with
  | some files => .ok files
  | none => .error .io

/-- Adds a directory and those it lies in. -/
def addDirectory (files : FileTree) (place : Location) : FileTree :=
  (List.range place.length).foldl (fun files n =>
    let part := place.take (n + 1)
    if (files.entry? part).isSome then files else files.put part .directory) files

/-- The place that a path names, whatever is on the way to it. -/
def placeOf (files : FileTree) (path : String) : Location :=
  (Path.steps path).foldl (fun place step =>
      if step = "" || step = "." then place
      else if step = ".." then place.dropLast
      else place ++ [step])
    (if Path.isAbsolute path then [] else files.home)

/-- Adds a file at a path, with the directories on the way. A path that ends with a slash adds a
directory. -/
def add (files : FileTree) (path : String) (bytes : ByteArray) : FileTree :=
  let place := files.placeOf path
  if Text.endsWith '/' path.toList then files.addDirectory place
  else (files.addDirectory place.dropLast).put place (.file bytes)

end FileTree

end LiveDoc
