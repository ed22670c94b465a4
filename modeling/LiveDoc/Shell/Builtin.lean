import LiveDoc.Shell.Pattern
import LiveDoc.Shell.State

/-!
# Builtin commands

The commands that the shell itself carries out and that run no other commands. `action?` finds one
by its name. The `special` ones end the shell when they are used wrongly, and what is assigned
before them stays.
-/

namespace LiveDoc.Shell.Builtin

open LiveDoc.Shell.Action

/-- A text that is a number without a sign. -/
def natural? (s : List Char) : Option Nat :=
  if s.isEmpty || !s.all Char.isDigit then none
  else some (s.foldl (fun n d => 10 * n + (d.toNat - 48)) 0)

/-- Ends the shell because an argument of a command is no number. -/
def illegal {α : Type} (name : String) (word : List Char) : Action α :=
  abort (name.toList ++ ": Illegal number: ".toList ++ word)

/-! ## Leaving -/

/-- Sets the status that a command was given, and leaves. -/
def leave (name : String) (signal : Signal) (arguments : List (List Char)) : Action Unit :=
  match arguments with
  | [] => throw signal
  | word :: _ =>
    match natural? word with
    | some n => do
      finish n
      throw signal
    | none => illegal name word

/-- Leaves the loops around the command. -/
def leaveLoop (name : String) (again : Bool) (arguments : List (List Char)) : Action Unit := do
  let word := arguments.head?.getD ['1']
  finish 0
  match natural? word with
  | none | some 0 => illegal name word
  | some n => do
    let loops := (← get).loops
    if loops = 0 then return
    else throw (.loop again (min n loops))

/-! ## Parameters and variables -/

/-- Drops the first parameters. -/
def shift (arguments : List (List Char)) : Action Unit := do
  let word := arguments.head?.getD ['1']
  match natural? word with
  | none => illegal "shift" word
  | some n =>
    let s ← get
    if n > s.parameters.length then abort "shift: can't shift that many".toList
    else set { s with parameters := s.parameters.drop n, status := 0 }

/-- Switches an option on or off. -/
def switch (on : Bool) (s : State) (letter : Char) : State :=
  match letter with
  | 'e' => { s with exitsOnFailure := on }
  | 'u' => { s with requiresNames := on }
  | 'f' => { s with findsFiles := !on }
  | _ => s

/-- The letter of an option that is named. -/
def optionLetter (name : List Char) : Char :=
  match String.ofList name with
  | "errexit" => 'e'
  | "nounset" => 'u'
  | "noglob" => 'f'
  | _ => 'o'

/-- Sets options, and the parameters if some are given. -/
def setAll : List (List Char) → Action Unit
  | [] => finish 0
  | ['-', '-'] :: rest => modify fun s => { s with parameters := rest, status := 0 }
  | ['-', 'o'] :: name :: rest => do
    modify fun s => switch true s (optionLetter name)
    setAll rest
  | ['+', 'o'] :: name :: rest => do
    modify fun s => switch false s (optionLetter name)
    setAll rest
  | (sign :: letter :: letters) :: rest =>
    if sign = '-' || sign = '+' then do
      modify fun s => (letter :: letters).foldl (switch (sign = '-')) s
      setAll rest
    else modify fun s => { s with parameters := (sign :: letter :: letters) :: rest, status := 0 }
  | words => modify fun s => { s with parameters := words, status := 0 }

/-- The name and the value that a word assigns. -/
def assignment (word : List Char) : String × Option (List Char) :=
  let name := word.takeWhile (· ≠ '=')
  (String.ofList name,
    if name.length = word.length then none else some (word.drop (name.length + 1)))

/-- How names are declared. -/
inductive Declaration where
  | plain
  /-- The name gets its old value back when the function ends. -/
  | inFunction
  /-- The value is the last one. -/
  | forGood
  deriving DecidableEq, Repr

/-- Assigns what words say. -/
def declare (how : Declaration) (words : List (List Char)) : Action Unit := do
  finish 0
  for word in words.filter (·.head? ≠ some '-') do
    let (name, value) := assignment word
    if how = .inFunction then
      modify fun s => { s with outer := (name, s.store.get? name) :: s.outer }
    if let some value := value then assign name value
    if how = .forGood then
      modify fun s => { s with fixed := name :: s.fixed }

/-- Takes the values of variables, or functions, away. -/
def unset (words : List (List Char)) : Action Unit := do
  finish 0
  match words with
  | ['-', 'f'] :: names =>
    modify fun s =>
      { s with functions := s.functions.filter fun f => !names.contains f.1.toList }
  | names =>
    for name in names do
      if (← get).fixed.contains (String.ofList name) then
        abort ("unset: ".toList ++ name ++ ": is read only".toList)
      modify fun s => s.unset (String.ofList name)

/-! ## Input and output -/

/-- The characters that separate fields. -/
def separators (s : State) : List Char := (s.store.get? "IFS").getD [' ', '\t', '\n']

/-- Whether a character separates fields and is white space. -/
def isSpace (ifs : List Char) (g : Glyph) : Bool :=
  !g.quoted && ifs.contains g.char && [' ', '\t', '\n'].contains g.char

/-- Whether a character separates fields. -/
def separates (ifs : List Char) (g : Glyph) : Bool := !g.quoted && ifs.contains g.char

/-- Gives variables the fields of a line; the last one gets all that is left. -/
def distribute (ifs : List Char) : List String → List Glyph → List (String × List Char)
  | [], _ => []
  | [name], line =>
    let line := line.dropWhile (isSpace ifs)
    [(name, (line.reverse.dropWhile (isSpace ifs)).reverse.map (·.char))]
  | name :: names, line =>
    let line := line.dropWhile (isSpace ifs)
    let field := line.takeWhile (!separates ifs ·)
    let rest := (line.drop field.length).dropWhile (isSpace ifs)
    let rest :=
      match rest with
      | g :: more => if separates ifs g then more else rest
      | [] => []
    (name, field.map (·.char)) :: distribute ifs names rest

/-- Reads the characters of a line, where a backslash quotes the next one, and tells whether it ends
in a backslash. -/
def glyphs : List Char → List Glyph × Bool
  | [] => ([], false)
  | ['\\'] => ([], true)
  | '\\' :: c :: rest =>
    let (gs, open?) := glyphs rest
    (⟨true, c⟩ :: gs, open?)
  | c :: rest =>
    let (gs, open?) := glyphs rest
    (⟨false, c⟩ :: gs, open?)

/-- Takes a line of input. Unless it is `raw`, a backslash at its end joins the next one. -/
def inputLine (raw : Bool) : (fuel : Nat) → Action (List Glyph × Bool)
  | 0 => return ([], false)
  | fuel + 1 => do
    let (line, ended) ← takeLine 0
    if raw then return (line.map fun c => ⟨false, c⟩, ended)
    else
      let (gs, joined) := glyphs line
      if joined && ended then
        let (more, ended) ← inputLine raw fuel
        return (gs ++ more, ended)
      else return (gs, ended)

/-- Reads a line into variables. -/
def read (arguments : List (List Char)) : Action Unit := do
  let (raw, names) :=
    match arguments with
    | ['-', 'r'] :: names => (true, names)
    | names => (false, names)
  if names.isEmpty then
    complain "read: arg count".toList
    finish 2
  else
    let (line, ended) ← inputLine raw 10000
    let values := distribute (separators (← get)) (names.map String.ofList) line
    for (name, value) in values do assign name value
    finish (if ended then 0 else 1)

/-- Writes formatted arguments. -/
def printf (arguments : List (List Char)) : Action Unit :=
  let arguments := if arguments.head? = some ['-', '-'] then arguments.drop 1 else arguments
  match arguments with
  | [] => do
    complain "printf: usage: printf format [arg ...]".toList
    finish 2
  | format :: arguments => do
    let (text, complaints, status) := Print.printf format arguments
    write 1 text
    for reason in complaints do complain ("printf: ".toList ++ reason)
    finish status

/-- Decides a condition. -/
def test (name : String) (words : List (List Char)) : Action Unit := do
  let s ← get
  match Condition.holds s.files s.directory words with
  | .ok truth => finish (if truth then 0 else 1)
  | .error fault => do
    complain (name.toList ++ ": ".toList ++ fault.message)
    finish 2

/-! ## Directories and processes -/

/-- The text of a place. -/
def placeText (place : Location) : List Char := charsOf ("/" ++ "/".intercalate place)

/-- Goes to another directory. -/
def changeDirectory (arguments : List (List Char)) : Action Unit := do
  let s ← get
  let path := arguments.head?.getD ((s.store.get? "HOME").getD [])
  match ← locate? path with
  | some place =>
    if s.files.hasDirectory place then set { s with directory := place, status := 0 }
    else refuse path
  | none => if path.isEmpty then finish 0 else refuse path
where
  /-- The directory is not there. -/
  refuse (path : List Char) : Action Unit := do
    complain ("cd: can't cd to ".toList ++ path)
    finish 2

/-- The number of the shell's own process. -/
def ownProcess : List Char := ['2']

/-- Signals that end no process. -/
def harmless : List String :=
  ["0", "17", "18", "23", "28", "CHLD", "CONT", "URG", "WINCH", "EXIT"]

/-- Sends a signal. Only the shell's own process is there to get it. -/
def kill (arguments : List (List Char)) : Action Unit :=
  match arguments with
  | ['-', 's'] :: signal :: targets => send (String.ofList signal) targets
  | ('-' :: signal) :: targets => send (String.ofList signal) targets
  | targets => send "TERM" targets
where
  /-- Sends a signal to processes. -/
  send (signal : String) (targets : List (List Char)) : Action Unit :=
    if targets.isEmpty then do
      complain "kill: Usage: kill [-s sigspec | -signum | -sigspec] [pid | job]...".toList
      finish 2
    else if targets.contains ownProcess then
      if harmless.contains signal then finish 0 else throw .killed
    else do
      complain "kill: No such process".toList
      finish 1

/-- Keeps a script for when the shell ends. -/
def trap (arguments : List (List Char)) : Action Unit := do
  finish 0
  match arguments with
  | script :: signals =>
    if signals.contains "EXIT".toList || signals.contains ['0'] then
      modify fun s => { s with farewell := if script = ['-'] then [] else script }
  | [] => return

/-! ## The table -/

/-- The commands that end the shell when they are used wrongly. -/
def special : List String :=
  [":", "break", "continue", "eval", "exec", "exit", "export", "readonly", "return", "set", "shift",
    "trap", "unset", "."]

/-- The action of a command. -/
def action? (name : String) (arguments : List (List Char)) : Option (Action Unit) :=
  match name with
  | ":" | "true" | "wait" | "umask" | "hash" => some (finish 0)
  | "false" => some (finish 1)
  | "echo" => some do
    write 1 (Print.echo arguments)
    finish 0
  | "printf" => some (printf arguments)
  | "read" => some (read arguments)
  | "test" => some (test "test" arguments)
  | "[" => some (
    if arguments.getLast? = some [']'] then test "[" arguments.dropLast
    else do
      complain "[: missing ]".toList
      finish 2)
  | "cd" => some (changeDirectory arguments)
  | "pwd" => some do
    write 1 (placeText (← get).directory ++ ['\n'])
    finish 0
  | "exit" => some (leave name .shell arguments)
  | "return" => some (leave name .function arguments)
  | "break" => some (leaveLoop name false arguments)
  | "continue" => some (leaveLoop name true arguments)
  | "shift" => some (shift arguments)
  | "set" => some (setAll arguments)
  | "unset" => some (unset arguments)
  | "export" => some (declare .plain arguments)
  | "readonly" => some (declare .forGood arguments)
  | "local" => some (declare .inFunction arguments)
  | "kill" => some (kill arguments)
  | "trap" => some (trap arguments)
  | _ => none

end LiveDoc.Shell.Builtin
