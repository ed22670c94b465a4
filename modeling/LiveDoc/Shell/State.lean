import LiveDoc.Shell.Command
import LiveDoc.Shell.Condition
import LiveDoc.Shell.Print

/-!
# States of the shell

What a running script can see and change, and the actions on it. An action ends normally or by a
`Signal`, which leaves the commands around it; the state is kept either way.

All output goes to streams: texts that are written at the end and read from the start. A pipe and
the output that an expansion asks for are streams too, since the commands run one after the other.
-/

namespace LiveDoc.Shell

/-- Where a descriptor leads. -/
inductive Channel where
  | stream (index : Nat)
  /-- Writes at the end of a file. -/
  | file (place : Location)
  | nothing
  deriving DecidableEq, Repr

/-- What leaves the commands around a command. -/
inductive Signal where
  /-- Leaves loops, and goes on with the outermost of them if `again`. -/
  | loop (again : Bool) (levels : Nat)
  | function
  | shell
  | killed
  deriving DecidableEq, Repr

/-- The state of a shell. -/
structure State where
  files : FileTree
  directory : Location
  /-- The values of the variables. -/
  store : Store (List Char)
  /-- The variables that cannot be changed any more. -/
  fixed : List String
  functions : Store Command
  /-- What the shell is called in its complaints. -/
  name : List Char
  parameters : List (List Char)
  /-- The status of the last command. -/
  status : Nat
  /-- The status of the last script that an expansion ran. -/
  expansionStatus : Option Nat
  streams : List (List Char)
  channels : List (Nat × Channel)
  /-- The variables that a function took as its own, with what they were outside. -/
  outer : List (String × Option (List Char))
  /-- How many loops are being run. -/
  loops : Nat
  line : Nat
  /-- The script to run when the shell ends. -/
  farewell : List Char
  /-- Whether a command that fails ends the shell. -/
  exitsOnFailure : Bool
  /-- Whether a parameter that is not set ends the shell. -/
  requiresNames : Bool
  /-- Whether patterns stand for the names of files. -/
  findsFiles : Bool

/-- What is done in a shell. -/
abbrev Action (α : Type) := ExceptT Signal (StateM State) α

namespace State

/-- The stream of a shell's output. -/
def outputStream : Nat := 0

/-- The stream of a shell's complaints. -/
def complaintStream : Nat := 1

/-- The state in which a shell starts. -/
def start (files : FileTree) (directory : Location) : State where
  files := files
  directory := directory
  store := []
  fixed := []
  functions := []
  name := ['s', 'h']
  parameters := []
  status := 0
  expansionStatus := none
  streams := [[], []]
  channels := [(0, .nothing), (1, .stream outputStream), (2, .stream complaintStream)]
  outer := []
  loops := 0
  line := 0
  farewell := []
  exitsOnFailure := false
  requiresNames := false
  findsFiles := true

/-- Where a descriptor leads. -/
def channel (s : State) (descriptor : Nat) : Channel :=
  ((s.channels.find? (·.1 = descriptor)).map (·.2)).getD .nothing

/-- The state with a descriptor led elsewhere. -/
def connect (s : State) (descriptor : Nat) (c : Channel) : State :=
  { s with channels := (descriptor, c) :: s.channels.filter (·.1 ≠ descriptor) }

/-- The content of a stream. -/
def stream (s : State) (index : Nat) : List Char := (s.streams[index]?).getD []

/-- The state with a text written to a channel. -/
def write (s : State) (c : Channel) (text : List Char) : State :=
  match c with
  | .stream i => { s with streams := s.streams.set i (s.stream i ++ text) }
  | .file place =>
    match s.files.entry? place with
    | some (.file bytes) =>
      let bytes := bytes ++ (toBytes text).toByteArray
      { s with files := s.files.put place (.file bytes) }
    | _ => s
  | .nothing => s

/-- The state with a variable set. -/
def assign (s : State) (name : String) (value : List Char) : State :=
  { s with store := s.store.put name value }

/-- The state with a variable not set. -/
def unset (s : State) (name : String) : State :=
  { s with store := s.store.filter (·.1 ≠ name) }

/-- The state with a variable set or not. -/
def restore (s : State) (name : String) (value : Option (List Char)) : State :=
  match value with
  | some value => s.assign name value
  | none => s.unset name

end State

/-! ## Actions -/

namespace Action

/-- Sets the status. -/
def finish (status : Nat) : Action Unit := modify fun s => { s with status }

/-- Writes to a descriptor. -/
def write (descriptor : Nat) (text : List Char) : Action Unit :=
  modify fun s => s.write (s.channel descriptor) text

/-- Writes a complaint with the place it is about. -/
def complain (reason : List Char) : Action Unit := do
  let s ← get
  write 2 (s.name ++ s!": {s.line}: ".toList ++ reason ++ ['\n'])

/-- Ends the shell with a complaint. -/
def abort {α : Type} (reason : List Char) : Action α := do
  complain reason
  finish 2
  throw .shell

/-- Sets a variable. -/
def assign (name : String) (value : List Char) : Action Unit := do
  let s ← get
  if s.fixed.contains name then abort (name.toList ++ ": is read only".toList)
  else set (s.assign name value)

/-- A new stream with a text in it. -/
def openStream (text : List Char) : Action Nat := do
  let s ← get
  set { s with streams := s.streams ++ [text] }
  return s.streams.length

/-- Runs an action, and then another one however it ended. -/
def afterwards {α : Type} (action : Action α) (last : Action Unit) : Action α := do
  let a ← tryCatch action fun signal => do
    last
    throw signal
  last
  return a

/-- Runs an action that changes nothing but files, streams and the status. -/
def isolated (action : Action Unit) : Action Unit := do
  let before ← get
  set { before with farewell := [] }
  tryCatch action fun signal =>
    if signal = .killed then throw .killed else return
  modify fun s =>
    { before with files := s.files, streams := s.streams, status := s.status % 256 }

/-- What an action writes to the output. -/
def captured (action : Action Unit) : Action (List Char) := do
  let i ← openStream []
  isolated do
    modify fun s => s.connect 1 (.stream i)
    action
  return (← get).stream i

/-- Takes a line from a descriptor, without its end, and tells whether it had one. -/
def takeLine (descriptor : Nat) : Action (List Char × Bool) := do
  let s ← get
  match s.channel descriptor with
  | .stream i =>
    let text := s.stream i
    let line := text.takeWhile (· ≠ '\n')
    let rest := text.drop line.length
    set { s with streams := s.streams.set i (rest.drop 1) }
    return (line, !rest.isEmpty)
  | _ => return ([], false)

/-- Runs the body of a loop, and tells whether the loop goes on. -/
def turn (body : Action Unit) : Action Bool := do
  modify fun s => { s with loops := s.loops + 1 }
  let again ← afterwards
    (tryCatch (do body; return true) fun
      | .loop again levels => if levels > 1 then throw (.loop again (levels - 1)) else return again
      | signal => throw signal)
    (modify fun s => { s with loops := s.loops - 1 })
  return again

/-- The place of a path. -/
def locate? (path : List Char) : Action (Option Location) := do
  let s ← get
  return s.files.locate? s.directory (stringOf path)

/-! ## Redirections -/

/-- The channel that a path names whatever files there are. -/
def device? (s : State) (path : List Char) : Option Channel :=
  match String.ofList path with
  | "/dev/null" => some .nothing
  | "/dev/stdin" => some (s.channel 0)
  | "/dev/stdout" => some (s.channel 1)
  | "/dev/stderr" => some (s.channel 2)
  | _ => none

/-- Complains about a file that cannot be used. -/
def refuse (verb : String) (path : List Char) (reason : String) : Action Bool := do
  complain (verb.toList ++ ' ' :: path ++ ": ".toList ++ reason.toList)
  return false

/-- Leads a descriptor to the content of a file. -/
def openInput (descriptor : Nat) (path : List Char) : Action Bool := do
  let s ← get
  match device? s path with
  | some c => do
    set (s.connect descriptor c)
    return true
  | none =>
    match (← locate? path).bind s.files.entry? with
    | some (.file bytes) => do
      let i ← openStream (ofBytes bytes.toList)
      modify fun s => s.connect descriptor (.stream i)
      return true
    | some .directory => do
      modify fun s => s.connect descriptor .nothing
      return true
    | none => refuse "cannot open" path "No such file"

/-- Leads a descriptor to the end of a file, which is emptied unless it is to be kept. -/
def openOutput (descriptor : Nat) (kept : Bool) (path : List Char) : Action Bool := do
  let s ← get
  match device? s path with
  | some c => do
    set (s.connect descriptor c)
    return true
  | none =>
    match ← locate? path with
    | none => refuse "cannot create" path "Directory nonexistent"
    | some place =>
      let old := match s.files.entry? place with
        | some (.file bytes) => if kept then bytes else .empty
        | _ => .empty
      match s.files.writeAt place old with
      | some files => do
        set ({ s with files }.connect descriptor (.file place))
        return true
      | none =>
        if s.files.hasDirectory place then refuse "cannot create" path "Is a directory"
        else refuse "cannot create" path "Directory nonexistent"

/-- Leads a descriptor to where another one leads. -/
def duplicate (descriptor : Nat) (word : List Char) : Action Bool := do
  let s ← get
  if word = ['-'] then
    set (s.connect descriptor .nothing)
    return true
  else
    match word with
    | [d] =>
      match s.channels.find? (·.1 = d.toNat - 48) with
      | some (_, c) => do
        set (s.connect descriptor c)
        return true
      | none => do
        complain (word ++ ": Bad file descriptor".toList)
        return false
    | _ => do
      complain "Syntax error: Bad fd number".toList
      return false

/-- Redirects a descriptor, and tells whether that was possible. -/
def redirect (descriptor : Nat) (direction : Direction) (target : List Char) : Action Bool :=
  match direction with
  | .input => openInput descriptor target
  | .output => openOutput descriptor false target
  | .append => openOutput descriptor true target
  | .duplicate => duplicate descriptor target
  | .document => do
    let i ← openStream target
    modify fun s => s.connect descriptor (.stream i)
    return true

end Action

end LiveDoc.Shell
