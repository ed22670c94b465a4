import LiveDoc.CommandLine.Flag

/-!
# Invocations

What a command line asks for: a task on a document, and what it overrides. `Invocation.parse` reads
the arguments one by one. A value is looked at only when the next option, the next document or the
end of the arguments comes, so an argument that is not known at all is reported first.
-/

namespace LiveDoc.CommandLine

/-- What is to be done with a rendered document. -/
inductive Task where
  /-- Print it, or write it to a file. -/
  | render (output : Option String)
  /-- Compare it with a file, and show the difference or not. -/
  | check (output : String) (showsDiff : Bool)
  deriving DecidableEq, Repr

/-- What overrides a configuration. -/
structure Overrides where
  width : Option Nat
  normalizes : Bool
  tag : Option String
  strict : Bool
  deriving DecidableEq, Repr

/-- What a command line asks for. -/
structure Invocation where
  task : Task
  document : String
  overrides : Overrides
  config : Option String
  verbose : Bool
  noColor : Bool
  deriving DecidableEq, Repr

/-! ## Reading -/

/-- What an argument was given for. -/
inductive Slot where
  | option (f : Flag)
  | document
  deriving DecidableEq, Repr

/-- An argument that was not looked at yet. An option waits for its value. -/
structure Pending where
  slot : Slot
  value : Option String
  deriving DecidableEq, Repr

/-- What was read at a level. -/
structure Given where
  values : List (Slot × String)
  pending : Option Pending
  /-- Whether the document was named, looked at or not. -/
  hasDocument : Bool
  /-- Whether only documents can follow. -/
  plainOnly : Bool
  deriving DecidableEq, Repr

namespace Given

/-- Nothing read. -/
def empty : Given := ⟨[], none, false, false⟩

/-- The value of a slot. -/
def value? (g : Given) (slot : Slot) : Option String :=
  (g.values.find? (·.1 = slot)).map (·.2)

/-- Whether an option was given. -/
def has (g : Given) (f : Flag) : Bool := (g.value? (.option f)).isSome

/-- The number that a text is, if it has at most 64 bits. It may start with a plus sign. -/
def number? (text : String) : Option Nat :=
  let digits := match text.toList with
    | '+' :: rest => rest
    | cs => cs
  let n := digits.foldl (fun n d => 10 * n + (d.toNat - 48)) 0
  if !digits.isEmpty && digits.all Char.isDigit && n < UInt64.size then some n else none

/-- Accepts a value for a slot, once. -/
def accept (g : Given) (slot : Slot) (value : String) : Except UsageError Given :=
  let operand := match slot with
    | .option f => f.operand
    | .document => .path
  if (g.value? slot).isSome then .error .repeatedOption
  else if operand = .path && value.isEmpty then .error .emptyValue
  else if operand = .number && (number? value).isNone then .error .malformedValue
  else .ok { g with values := (slot, value) :: g.values }

/-- Looks at the argument that was not looked at yet. -/
def settle (g : Given) : Except UsageError Given :=
  match g.pending with
  | none => .ok g
  | some ⟨_, none⟩ => .error .emptyValue
  | some ⟨slot, some value⟩ => { g with pending := none }.accept slot value

/-- Takes an option, with the value that was written together with it. -/
def takeFlag (g : Given) (f : Flag) (value : Option String) : Except UsageError Given :=
  if f.operand = .none then
    match value with
    | some _ => .error .needlessValue
    | none => do
      let g ← g.settle
      match f with
      | .help => .error .help
      | .version => .error .version
      | _ => g.accept (.option f) ""
  else do
    let g ← g.settle
    match value with
    | some value => g.accept (.option f) value
    | none => return { g with pending := some ⟨.option f, none⟩ }

/-- Takes options by their letters. The first one that takes a value gets the rest, behind an equals
sign or at once. -/
def takeLetters (l : Level) : List Char → Given → Except UsageError Given
  | [], g => .ok g
  | c :: rest, g =>
    match l.flagOfLetter? c with
    | none => .error .unknownArgument
    | some f =>
      if f.operand = .none then do takeLetters l rest (← g.takeFlag f none)
      else
        match rest with
        | [] => g.takeFlag f none
        | '=' :: rest => g.takeFlag f (some (String.ofList rest))
        | rest => g.takeFlag f (some (String.ofList rest))

/-- Takes an option by its name, which may be followed by an equals sign and a value. -/
def takeName (l : Level) (text : List Char) (g : Given) : Except UsageError Given :=
  let name := text.takeWhile (· ≠ '=')
  let value := match text.drop name.length with
    | _ :: value => some (String.ofList value)
    | [] => none
  match l.flag? (String.ofList name) with
  | some f => g.takeFlag f value
  | none => .error .unknownArgument

/-- Whether an option waits for its value. -/
def awaits (g : Given) : Bool := g.pending.any fun p => p.value.isNone

/-- Takes an argument that is no option. -/
def takePlain (l : Level) (argument : String) (g : Given) : Except UsageError Given :=
  match g.pending with
  | some ⟨slot, none⟩ =>
    if g.plainOnly then takeDocument g
    else .ok { g with pending := some ⟨slot, some argument⟩ }
  | _ => takeDocument g
where
  /-- Takes the argument as the document. -/
  takeDocument (g : Given) : Except UsageError Given :=
    if l = .top then
      .error (if g.plainOnly && ["render", "check", "help"].contains argument then .unknownArgument
        else .unknownTask)
    else if g.hasDocument then .error .unknownArgument
    else do
      let g ← g.settle
      return { g with pending := some ⟨.document, some argument⟩, hasDocument := true }

/-- Takes an argument. -/
def take (l : Level) (argument : String) (g : Given) : Except UsageError Given :=
  if g.plainOnly then g.takePlain l argument
  else
    match argument.toList with
    | ['-', '-'] => .ok { g with plainOnly := true }
    | '-' :: '-' :: text => g.takeName l text
    | '-' :: c :: rest => g.takeLetters l (c :: rest)
    | _ => g.takePlain l argument

/-- Takes all arguments behind the name of a task. -/
def takeAll (l : Level) : List String → Given → Except UsageError Given
  | [], g => g.settle
  | a :: rest, g =>
    match g.take l a with
    | .ok g => takeAll l rest g
    | .error e => .error e

end Given

namespace Invocation

/-- What overrides the configuration. -/
def overridesOf (g : Given) : Overrides :=
  ⟨(g.value? (.option .width)).bind Given.number?, g.has .normalize,
    g.value? (.option .tag), g.has .strict⟩

/-- The task that is asked for behind its name, if all that it needs was given. -/
def taskOf? (l : Level) (g : Given) : Option Task :=
  match l, g.value? (.option .output) with
  | .check, some output => some (.check output (g.has .diff))
  | .check, none => none
  | _, output => some (.render output)

/-- Reads what stands behind the name of a task. For what can be given on both sides of the name,
what stands behind it counts. -/
def parseTask (l : Level) (outer : Given) (arguments : List String) :
    Except UsageError Invocation := do
  let inner ← Given.empty.takeAll l arguments
  match inner.value? .document, taskOf? l inner with
  | some document, some task => do
    let outer ← outer.settle
    return ⟨task, document, overridesOf inner,
      (inner.value? (.option .config)).or (outer.value? (.option .config)),
      inner.has .verbose || outer.has .verbose, inner.has .noColor || outer.has .noColor⟩
  | _, _ => throw .missingArgument

/-- Reads what help is asked for: that of the program, or that of one task. -/
def parseHelp : List String → UsageError
  | [] => .help
  | [task] => if ["render", "check", "help"].contains task then .help else .unknownTask
  | _ => .unknownTask

/-- Reads what stands before the name of a task. -/
def parseFrom : Given → List String → Except UsageError Invocation
  | outer, [] => do
    let outer ← outer.settle
    throw (if outer.values.isEmpty then .nothingGiven else .missingTask)
  | outer, a :: rest =>
    if !outer.plainOnly && !outer.awaits && a = "render" then parseTask .render outer rest
    else if !outer.plainOnly && !outer.awaits && a = "check" then parseTask .check outer rest
    else if !outer.plainOnly && !outer.awaits && a = "help" then .error (parseHelp rest)
    else
      match outer.take .top a with
      | .ok outer => parseFrom outer rest
      | .error e => .error e

/-- Reads a command line. -/
def parse (arguments : List String) : Except UsageError Invocation := parseFrom .empty arguments

end Invocation

end LiveDoc.CommandLine
