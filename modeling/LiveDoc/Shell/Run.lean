import LiveDoc.Command
import LiveDoc.Shell.Field

/-!
# Running scripts

The commands of a script are carried out one after the other on a `State`. Every function here gives
up when its fuel is used up, which only a script that does not end reaches.

* `word` expands a word into `Bit`s, and `fields` several words into the fields of a command;
* `command` carries out a command, and `script` the lines of a script;
* `launcher` is the shell as a `Launcher`.
-/

namespace LiveDoc.Shell.Run

open LiveDoc.Shell.Action

/-! ## Parameters -/

/-- A number as a text. -/
def numeral (n : Nat) : List Char := Nat.toDigits 10 n

/-- The value of a parameter, if it is set. -/
def value? (s : State) (name : String) : Option (List Char) :=
  let listed (separator : List Char) : Option (List Char) :=
    if s.parameters.isEmpty then none else some (Text.join separator s.parameters)
  match name with
  | "?" => some (numeral s.status)
  | "#" => some (numeral s.parameters.length)
  | "$" => some Builtin.ownProcess
  | "!" | "-" => some []
  | "0" => some s.name
  | "@" => listed [' ']
  | "*" => listed ((Builtin.separators s).take 1)
  | _ =>
    match Builtin.natural? name.toList with
    | some n => s.parameters[n - 1]?
    | none => s.store.get? name

/-- The bits of an expansion. -/
def expansion (quoted : Bool) (text : List Char) : List Bit :=
  Field.bits (if quoted then .quoted else .expanded) text

/-- The bits of all parameters, each a field of its own. -/
def everyParameter (quoted : Bool) : List (List Char) → List Bit
  | [] => []
  | [p] => (if quoted then [.mark] else []) ++ expansion quoted p
  | p :: rest =>
    (if quoted then [.mark] else []) ++ expansion quoted p ++ .cut :: everyParameter quoted rest

/-- The bits of a parameter. -/
def parameterBits (quoted : Bool) (name : String) : Action (List Bit) := do
  let s ← get
  if name = "@" || (name = "*" && !quoted) then return everyParameter quoted s.parameters
  else
    match value? s name with
    | some text => return expansion quoted text
    | none =>
      if s.requiresNames && name ≠ "*" then abort (name.toList ++ ": parameter not set".toList)
      else return []

/-- Bits of which the literal ones count as expanded. -/
def asExpanded (w : List Bit) : List Bit :=
  w.map fun
    | .char .literal c => .char .expanded c
    | b => b

/-- A word that goes away when there are no parameters: `"$@"`. -/
def vanishes (s : State) (w : Word) : Bool :=
  s.parameters.isEmpty && w.any fun
    | .parameter true "@" _ _ => true
    | _ => false

/-- Ends the shell because an expression has no value. -/
def abortFormula {α : Type} (source : List Char) : FormulaFault → Action α
  | .expected what => abort ("arithmetic expression: ".toList ++ what.toList ++ ": \"".toList ++
      source ++ ['"'])
  | .divisionByZero =>
    abort ("arithmetic expression: division by zero: \"".toList ++ source ++ ['"'])
  | .illegalNumber text => abort ("Illegal number: ".toList ++ text)

/-- Evaluates an expression. -/
def formula (source : List Char) : Action (List Char) := do
  let s ← get
  match (Formula.parse source).bind (Formula.eval s.store) with
  | .ok (n, store) => do
    set { s with store }
    return Formula.text n
  | .error fault => abortFormula source fault

/-- Ends the shell because a script cannot be read. -/
def abortMistake {α : Type} (source : List Char) (m : Mistake) : Action α := do
  let ends := (source.take (source.length - m.rest.length)).count '\n'
  modify fun s => { s with line := s.line + ends }
  abort ("Syntax error: ".toList ++ m.fault.message.toList)

/-- What was read of a source; a mistake ends the shell. -/
def reading {α : Type} (source : List Char) (result : Except Mistake α) : Action α :=
  match result with
  | .ok a => return a
  | .error m => abortMistake source m

/-! ## Commands -/

/-- Ends the shell if a command failed that was not to be tested. -/
def settle (tested : Bool) : Action Unit := do
  let s ← get
  if s.exitsOnFailure && !tested && s.status ≠ 0 then throw .shell

/-- Complains that there is no such command. -/
def unknown (name : List Char) : Action Unit := do
  let found := (← locate? name).bind (← get).files.entry?
  if name.contains '/' && found.isSome then
    complain (name ++ ": Permission denied".toList)
    finish 126
  else
    complain (name ++ ": not found".toList)
    finish 127

/-- The commands that run other commands. -/
def runners : List String := ["eval", ".", "exec", "command", "type"]

/-- Prints how a command would be found, in words or only that it would. -/
def describe (inWords : Bool) (name : List Char) : Action Unit := do
  let text := String.ofList name
  let known (kind : String) : Action Unit := do
    write 1 (name ++ (if inWords then " is a ".toList ++ kind.toList else []) ++ ['\n'])
    finish 0
  if ((← get).functions.get? text).isSome then known "shell function"
  else if Script.reserved.contains text then known "shell keyword"
  else if Builtin.special.contains text then known "special shell builtin"
  else if runners.contains text || (Builtin.action? text []).isSome then known "shell builtin"
  else do
    if inWords then write 1 (name ++ ": not found\n".toList)
    finish 127

mutual

/-- Expands a part of a word. -/
def part : (fuel : Nat) → Part → Action (List Bit)
  | 0, _ => return []
  | fuel + 1, p =>
    match p with
    | .malformed => abort "Bad substitution".toList
    | .text true [] => return [.mark]
    | .text quoted text => return Field.bits (if quoted then .quoted else .literal) text
    | .length name => do
      let s ← get
      return expansion true (numeral ((value? s name).getD []).length)
    | .script quoted source => do
      let output ← captured (script fuel false source)
      modify fun s => { s with expansionStatus := some s.status }
      return expansion quoted (output.reverse.dropWhile (· = '\n')).reverse
    | .arithmetic quoted source => do
      let (w, _) ← reading source (Script.double .idle (source.length + 1) source)
      let bits ← word fuel w
      return expansion quoted (← formula (Field.text bits))
    | .parameter quoted name operator source => do
      let value := value? (← get) name
      let isColon := operator.toList.head? = some ':'
      let given := value.any fun v => !(isColon && v.isEmpty)
      match operator with
      | ":-" | "-" =>
        if given then parameterBits quoted name else substitute fuel quoted source
      | ":+" | "+" => if given then substitute fuel quoted source else return []
      | ":=" | "=" =>
        if given then parameterBits quoted name
        else do
          let text := Field.text (← substitute fuel quoted source)
          assign name text
          return expansion quoted text
      | ":?" | "?" =>
        if given then parameterBits quoted name
        else do
          let text := Field.text (← substitute fuel quoted source)
          let reason :=
            if !source.isEmpty then text
            else if isColon then "parameter not set or null".toList
            else "parameter not set".toList
          abort (name.toList ++ ": ".toList ++ reason)
      | "%" | "%%" | "#" | "##" => do
        let pattern := Pattern.ofGlyphs (Field.glyphs (← substitute fuel false source))
        let cut := if operator.toList.head? = some '%' then Pattern.cutEnd else Pattern.cutStart
        return expansion quoted (cut (operator.length = 2) pattern (value.getD []))
      | _ => parameterBits quoted name

/-- Expands the source of a word inside of an expansion. -/
def substitute : (fuel : Nat) → (quoted : Bool) → List Char → Action (List Bit)
  | 0, _, _ => return []
  | fuel + 1, quoted, source => do
    let (w, _) ← reading source (
      if quoted then Script.double .idle (source.length + 1) source
      else Script.word false (source.length + 1) source)
    return asExpanded (← word fuel w)

/-- Expands a word. -/
def word : (fuel : Nat) → Word → Action (List Bit)
  | 0, _ => return []
  | fuel + 1, w =>
    match w with
    | [] => return []
    | p :: rest => do
      let bits ← part fuel p
      return bits ++ (← word fuel rest)

/-- Expands words into fields. -/
def fields : (fuel : Nat) → List Word → Action (List (List Char))
  | 0, _ => return []
  | fuel + 1, ws =>
    match ws with
    | [] => return []
    | w :: rest => do
      let bits ← word fuel w
      let s ← get
      let bits := if vanishes s w then bits.filter (· ≠ .mark) else bits
      let found := Field.fields (Builtin.separators s) bits
      let texts (field : List Glyph) : List (List Char) :=
        if s.findsFiles then Field.texts s.files s.directory field else [field.map (·.char)]
      return found.flatMap texts ++ (← fields fuel rest)

/-- Redirects descriptors, and tells whether that was possible. -/
def redirections : (fuel : Nat) → List Redirection → Action Bool
  | 0, _ => return false
  | fuel + 1, rs =>
    match rs with
    | [] => return true
    | r :: rest => do
      let target := Field.text (← word fuel r.target)
      if ← redirect r.descriptor r.direction target then redirections fuel rest
      else do
        finish 2
        return false

/-- Assigns variables. -/
def assignments : (fuel : Nat) → List (String × Word) → Action Unit
  | 0, _ => return
  | fuel + 1, pairs =>
    match pairs with
    | [] => return
    | (name, w) :: rest => do
      let text := Field.text (← word fuel w)
      assign name text
      assignments fuel rest

/-- Runs a command that is a name and arguments. -/
def invoke : (fuel : Nat) → (tested : Bool) → (name : List Char) →
    (arguments : List (List Char)) → Action Unit
  | 0, _, _, _ => return
  | fuel + 1, tested, name, arguments => do
    let text := String.ofList name
    let function? := (← get).functions.get? text
    match text, arguments, function?.isSome && !Builtin.special.contains text with
    | _, _, true => call fuel tested (function?.getD .skip) arguments
    | "eval", _, _ => do
      finish 0
      script fuel tested (Print.spaced arguments)
    | ".", path :: _, _ => do
      let s ← get
      if !path.contains '/' then abort (".: ".toList ++ path ++ ": not found".toList)
      match s.files.bytesFrom? s.directory (stringOf path) with
      | some bytes => do
        finish 0
        tryCatch (script fuel tested (ofBytes bytes.toList)) fun signal =>
          if signal = .function then return else throw signal
      | none => abort (".: cannot open ".toList ++ path ++ ": No such file".toList)
    | "exec", [], _ | "command", [], _ | "sh", [], _ => finish 0
    | "exec", name :: arguments, _ => do
      invoke fuel tested name arguments
      throw .shell
    | "command", ['-', 'v'] :: name :: _, _ => describe false name
    | "type", name :: _, _ => describe true name
    | "command", name :: arguments, _ =>
      match Builtin.action? (String.ofList name) arguments with
      | some action => action
      | none => unknown name
    | "sh", ['-', 'c'] :: source :: rest, _ =>
      isolated do
        modify fun s =>
          { State.start s.files s.directory with
            streams := s.streams, channels := s.channels, line := 1,
            name := rest.head?.getD ['s', 'h'], parameters := rest.tail }
        script fuel false source
    | _, _, _ =>
      match Builtin.action? text arguments with
      | some action => action
      | none => unknown name

/-- Calls a function. Its parameters and its own variables end with it. -/
def call : (fuel : Nat) → (tested : Bool) → Command → List (List Char) → Action Unit
  | 0, _, _, _ => return
  | fuel + 1, tested, body, arguments => do
    let before ← get
    set { before with parameters := arguments, outer := [], loops := 0 }
    afterwards
      (tryCatch (command fuel tested body) fun signal =>
        if signal = .function then return else throw signal)
      (modify fun s =>
        { s.outer.foldl (fun s (name, value) => s.restore name value) s with
          parameters := before.parameters, outer := before.outer, loops := before.loops })

/-- Runs a simple command. -/
def simple : (fuel : Nat) → (tested : Bool) → List (String × Word) → List Word →
    List Redirection → Action Unit
  | 0, _, _, _, _ => return
  | fuel + 1, tested, assigned, words, redirected => do
    modify fun s => { s with expansionStatus := none }
    let fs ← fields fuel words
    let before ← get
    let isDone ← redirections fuel redirected
    match fs with
    | [] => do
      modify fun s => { s with channels := before.channels }
      if isDone then
        assignments fuel assigned
        finish ((← get).expansionStatus.getD 0)
    | name :: arguments => do
      let isSpecial := Builtin.special.contains (String.ofList name)
      let back : Action Unit := do
        if name ≠ "exec".toList then modify fun s => { s with channels := before.channels }
        if !isSpecial then
          modify fun s => assigned.foldl (fun s (name, _) =>
            s.restore name (before.store.get? name)) s
      if isDone then
        afterwards (do assignments fuel assigned; invoke fuel tested name arguments) back
      else do
        modify fun s => { s with channels := before.channels }
        if isSpecial then throw .shell

/-- Runs the commands of a pipeline. -/
def stages : (fuel : Nat) → (input : Option Channel) → List Command → Action Unit
  | 0, _, _ => return
  | fuel + 1, input, cs =>
    let connectInput : Action Unit :=
      modify fun s => (input.map (s.connect 0)).getD s
    match cs with
    | [] => return
    | [c] =>
      isolated do
        connectInput
        command fuel true c
    | c :: rest => do
      let i ← openStream []
      isolated do
        connectInput
        modify fun s => s.connect 1 (.stream i)
        command fuel true c
      stages fuel (some (.stream i)) rest

/-- Runs commands one after the other. -/
def sequence : (fuel : Nat) → (tested : Bool) → List Command → Action Unit
  | 0, _, _ => return
  | fuel + 1, tested, cs =>
    match cs with
    | [] => return
    | c :: rest => do
      command fuel tested c
      sequence fuel tested rest

/-- Runs a loop; `status` is that of the last turn. -/
def loop : (fuel : Nat) → (tested whileSucceeding : Bool) → (condition body : Command) →
    (status : Nat) → Action Unit
  | 0, _, _, _, _, _ => return
  | fuel + 1, tested, whileSucceeding, condition, body, status => do
    command fuel true condition
    if ((← get).status = 0) = whileSucceeding then
      if ← turn (command fuel tested body) then
        loop fuel tested whileSucceeding condition body (← get).status
    else finish status

/-- Runs a loop over values. -/
def forEach : (fuel : Nat) → (tested : Bool) → String → List (List Char) → Command → Action Unit
  | 0, _, _, _, _ => return
  | fuel + 1, tested, name, values, body =>
    match values with
    | [] => return
    | value :: rest => do
      assign name value
      if ← turn (command fuel tested body) then forEach fuel tested name rest body

/-- Runs the first case of which a pattern stands for a text. -/
def choose : (fuel : Nat) → (tested : Bool) → (subject : List Char) →
    List (List Word × Command) → Action Unit
  | 0, _, _, _ => return
  | fuel + 1, tested, subject, cases =>
    match cases with
    | [] => finish 0
    | ([], _) :: rest => choose fuel tested subject rest
    | (w :: ws, body) :: rest => do
      let pattern := Pattern.ofGlyphs (Field.glyphs (← word fuel w))
      if Pattern.accepts pattern subject then
        finish 0
        command fuel tested body
      else choose fuel tested subject ((ws, body) :: rest)

/-- Carries out a command. A `tested` one may fail without ending the shell. -/
def command : (fuel : Nat) → (tested : Bool) → Command → Action Unit
  | 0, _, _ => return
  | fuel + 1, tested, c =>
    match c with
    | .simple assigned words redirected => do
      simple fuel tested assigned words redirected
      settle tested
    | .pipeline false cs => do
      stages fuel none cs
      settle tested
    | .pipeline true cs => do
      match cs with
      | [c] => command fuel true c
      | _ => stages fuel none cs
      finish (if (← get).status = 0 then 1 else 0)
    | .both a b => do
      command fuel true a
      if (← get).status = 0 then command fuel tested b
    | .either a b => do
      command fuel true a
      if (← get).status ≠ 0 then command fuel tested b
    | .sequence cs => sequence fuel tested cs
    | .redirected body rs => do
      let before := (← get).channels
      let back : Action Unit := modify fun s => { s with channels := before }
      if ← redirections fuel rs then afterwards (command fuel tested body) back
      else do
        back
        settle tested
    | .subshell body => do
      isolated (command fuel tested body)
      settle tested
    | .conditional condition a b => do
      command fuel true condition
      if (← get).status = 0 then command fuel tested a
      else
        match b with
        | .sequence [] => finish 0
        | b => command fuel tested b
    | .loop whileSucceeding condition body => loop fuel tested whileSucceeding condition body 0
    | .forEach name none body => do
      let values := (← get).parameters
      finish 0
      forEach fuel tested name values body
    | .forEach name (some ws) body => do
      let values ← fields fuel ws
      finish 0
      forEach fuel tested name values body
    | .choice subject cases => do
      let text := Field.text (← word fuel subject)
      choose fuel tested text cases
    | .define name body => do
      modify fun s => { s with functions := s.functions.put name body }
      finish 0

/-- Runs a script line by line. The lines before a mistake are run. -/
def script : (fuel : Nat) → (tested : Bool) → List Char → Action Unit
  | 0, _, _ => return
  | fuel + 1, tested, source =>
    if source.isEmpty then return
    else do
      let (c, rest) ← reading source (Script.line source)
      command fuel tested c
      let ends := (source.take (source.length - rest.length)).count '\n'
      modify fun s => { s with line := s.line + ends }
      script fuel tested rest

end

/-! ## The shell as a whole -/

/-- How much fuel a script gets. -/
def enough : Nat := 1000000

/-- Runs a script, and then what it left to be done at the end. -/
def whole (source : List Char) : Action Unit := do
  let ended (action : Action Unit) : Action Unit :=
    tryCatch action fun signal => if signal = .killed then throw .killed else return
  modify fun s => { s with line := 1 }
  ended (script enough false source)
  let s ← get
  ended do
    script enough false s.farewell
    finish s.status

/-- What comes of a script in a directory. -/
def outcome (files : FileTree) (directory : Location) (source : String) : Outcome :=
  let (ending, s) := (whole (charsOf source)).run.run (State.start files directory)
  let status := match ending with
    | .ok _ => some (s.status % 256)
    | .error _ => none
  .finished status (toBytes (s.stream State.outputStream))
    (toBytes (s.stream State.complaintStream))

end Run

/-- The shell. A directory that is not there, or a text that no process can be given, keeps it from
starting. -/
def launcher (files : FileTree) : Launcher := fun directory command =>
  if command.toList.contains '\x00' then .notStarted
  else
    match directory with
    | none => Run.outcome files files.home command
    | some path =>
      match files.directory? path with
      | some place => Run.outcome files place command
      | none => .notStarted

end LiveDoc.Shell
