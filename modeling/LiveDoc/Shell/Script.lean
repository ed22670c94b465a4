import LiveDoc.Shell.Command

/-!
# Reading scripts

A script is read one complete line at a time (`Script.line`), so that the lines before a mistake
are run. Every reader gets the characters from where its part may start. It gives what follows the
part, or the `Mistake` that it met.
-/

namespace LiveDoc.Shell

/-- Why a script cannot be read. -/
inductive ScriptFault where
  | unclosedQuote
  | unclosedBackquote
  | unclosedBrace
  | unclosedArithmetic
  | unexpected (found : String) (expected : Option String)
  | loopVariable
  | functionName
  deriving DecidableEq, Repr

/-- What is said about the fault. -/
def ScriptFault.message : ScriptFault → String
  | unclosedQuote => "Unterminated quoted string"
  | unclosedBackquote => "EOF in backquote substitution"
  | unclosedBrace => "Missing '\x7d'"
  | unclosedArithmetic => "Missing '))'"
  | unexpected found none => s!"{found} unexpected"
  | unexpected found (some expected) => s!"{found} unexpected (expecting {expected})"
  | loopVariable => "Bad for loop variable"
  | functionName => "Bad function name"

/-- A fault, and the characters from where it is. -/
structure Mistake where
  fault : ScriptFault
  rest : List Char

namespace Script

/-- Gives up. -/
def fail {α : Type} (fault : ScriptFault) (rest : List Char) : Except Mistake (α × List Char) :=
  .error ⟨fault, rest⟩

/-! ## Blanks and names -/

/-- Whether a character separates words on a line. -/
def isBlank (c : Char) : Bool := c = ' ' || c = '\t'

/-- Whether a character ends a word. -/
def endsWord (c : Char) : Bool := " \t\n;&|<>()".toList.contains c

/-- Whether a word ends here. -/
def atWordEnd (s : List Char) : Bool := s.head?.all endsWord

/-- Whether a character may start a name. -/
def startsName (c : Char) : Bool := c.isAlpha || c = '_'

/-- Whether a character may be in a name. -/
def isNameChar (c : Char) : Bool := c.isAlphanum || c = '_'

/-- Whether a text is a name. -/
def isName (s : List Char) : Bool := s.head?.any startsName && s.all isNameChar

/-- Skips blanks, joined lines and a comment. -/
def skipBlanks : (fuel : Nat) → List Char → List Char
  | 0, s => s
  | fuel + 1, s =>
    match s with
    | '\\' :: '\n' :: rest => skipBlanks fuel rest
    | '#' :: rest => rest.dropWhile (· ≠ '\n')
    | c :: rest => if isBlank c then skipBlanks fuel rest else s
    | [] => []

/-- Skips blanks, joined lines and a comment. -/
def skip (s : List Char) : List Char := skipBlanks (s.length + 1) s

/-- Skips blanks, comments and up to `fuel` line ends. -/
def skipEnds : (fuel : Nat) → List Char → List Char
  | 0, s => s
  | fuel + 1, s =>
    match skip s with
    | '\n' :: rest => skipEnds fuel rest
    | rest => rest

/-- Skips blanks, comments and line ends. -/
def skipLines (s : List Char) : List Char := skipEnds (s.length + 1) s

/-! ## Reserved words and operators -/

/-- What follows a reserved word, if it starts a text. -/
def reserved? (name : String) (s : List Char) : Option (List Char) :=
  let rest := s.drop name.length
  if name.toList.isPrefixOf s && atWordEnd rest then some rest else none

/-- The words that end a list of commands where they stand in the place of one. -/
def closers : List String := ["then", "else", "elif", "fi", "do", "done", "esac", "\x7d"]

/-- All reserved words. -/
def reserved : List String :=
  closers ++ ["!", "\x7b", "case", "for", "if", "in", "until", "while"]

/-- The operators, each after those that it starts. -/
def operators : List String := ["&&", "||", ";;", "&", "|", ";", "(", ")"]

/-- A word or an operator as messages show it. -/
def shown (name : String) : String := "\"" ++ name ++ "\""

/-- What is at the start of a text, in messages. -/
def found (s : List Char) : String :=
  match s.dropWhile Char.isDigit with
  | '<' :: _ | '>' :: _ => "redirection"
  | _ =>
    if s.isEmpty then "end of file"
    else if s.head? = some '\n' then "newline"
    else
      let names := operators.filter (·.toList.isPrefixOf s) ++
        reserved.filter fun name => (reserved? name s).isSome
      match names with
      | name :: _ => shown name
      | [] => "word"

/-- Gives up because something else was expected. -/
def unexpected {α : Type} (s : List Char) (expected : Option String) :
    Except Mistake (α × List Char) :=
  fail (.unexpected (found (skip s)) expected) s

/-- Reads a reserved word behind blanks and line ends. -/
def expect (name : String) (s : List Char) : Except Mistake (List Char) :=
  match reserved? name (skipLines s) with
  | some rest => .ok rest
  | none => .error ⟨.unexpected (found (skipLines s)) (some (shown name)), s⟩

/-! ## Words -/

/-- Reads a text in single quotes behind the first one. -/
def single (s : List Char) : Except Mistake (List Char × List Char) :=
  match s.dropWhile (· ≠ '\'') with
  | _ :: rest => .ok (s.takeWhile (· ≠ '\''), rest)
  | [] => fail .unclosedQuote []

/-- Reads source text up to the character that closes it. `depth` counts the opening characters that
were not closed, and quotes hide what they hold. -/
def balanced (opening closing : Char) (unclosed : ScriptFault) : (fuel depth : Nat) → List Char →
    Except Mistake (List Char × List Char)
  | 0, _, s => fail unclosed s
  | _ + 1, _, [] => fail unclosed []
  | fuel + 1, depth, c :: rest =>
    let more (used : List Char) (depth : Nat) (rest : List Char) :
        Except Mistake (List Char × List Char) := do
      let (text, rest) ← balanced opening closing unclosed fuel depth rest
      return (used ++ text, rest)
    if c = '\\' then more (c :: rest.take 1) depth (rest.drop 1)
    else if c = '\'' then do
      let (text, rest) ← single rest
      more (c :: text ++ [c]) depth rest
    else if c = closing && depth = 0 then .ok ([], rest)
    else if c = closing then more [c] (depth - 1) rest
    else if c = opening then more [c] (depth + 1) rest
    else more [c] depth rest

/-- Reads a script in backquotes behind the first one. A backslash before a backquote, a dollar sign
or a backslash goes. -/
def backquoted : List Char → Except Mistake (List Char × List Char)
  | [] => fail .unclosedBackquote []
  | '`' :: rest => .ok ([], rest)
  | '\\' :: c :: rest => do
    let (text, rest) ← backquoted rest
    return (if c = '`' || c = '\\' || c = '$' then c :: text else '\\' :: c :: text, rest)
  | c :: rest => do
    let (text, rest) ← backquoted rest
    return (c :: text, rest)

/-- Whether a character is the name of a special parameter. -/
def isSpecial (c : Char) : Bool := c.isDigit || "?#@*$!-".toList.contains c

/-- Reads the name of a parameter in braces. -/
def bracedName (s : List Char) : List Char :=
  match s with
  | c :: _ =>
    if startsName c then s.takeWhile isNameChar
    else if c.isDigit then s.takeWhile Char.isDigit
    else if isSpecial c then [c]
    else []
  | [] => []

/-- The operators between a name and a word in braces, each after those that it starts. -/
def modifiers : List String :=
  [":-", ":=", ":+", ":?", "%%", "##", "-", "=", "+", "?", "%", "#"]

/-- The part that a text in braces behind a dollar sign makes. -/
def braced (quoted : Bool) (s : List Char) : Part :=
  let name := bracedName s
  let rest := s.drop name.length
  let plain : Part :=
    if name.isEmpty then .malformed
    else if rest.isEmpty then .parameter quoted (String.ofList name) "" []
    else
      match modifiers.find? fun o => o.toList.isPrefixOf rest with
      | some o => .parameter quoted (String.ofList name) o (rest.drop o.length)
      | none => .malformed
  match s with
  | '#' :: more =>
    if !more.isEmpty && bracedName more = more then .length (String.ofList more) else plain
  | _ => plain

/-- Reads what stands behind a dollar sign. -/
def dollar (quoted : Bool) (s : List Char) : Except Mistake (Part × List Char) :=
  match s with
  | '(' :: '(' :: rest => do
    let (text, rest) ← balanced '(' ')' .unclosedArithmetic (rest.length + 1) 0 rest
    match rest with
    | ')' :: rest => return (.arithmetic quoted text, rest)
    | _ => fail .unclosedArithmetic rest
  | '(' :: rest => do
    let unclosed := ScriptFault.unexpected "end of file" (some (shown ")"))
    let (text, rest) ← balanced '(' ')' unclosed (rest.length + 1) 0 rest
    return (.script quoted text, rest)
  | '\x7b' :: rest => do
    let (text, rest) ← balanced '\x7b' '\x7d' .unclosedBrace (rest.length + 1) 0 rest
    return (braced quoted text, rest)
  | c :: rest =>
    if startsName c then
      let name := s.takeWhile isNameChar
      .ok (.parameter quoted (String.ofList name) "" [], s.drop name.length)
    else if isSpecial c then .ok (.parameter quoted (String.ofList [c]) "" [], rest)
    else .ok (.text quoted ['$'], s)
  | [] => .ok (.text quoted ['$'], [])

/-- What a double quote means in a text that is read as if in double quotes. -/
inductive DoubleQuote where
  /-- It ends the text. -/
  | ending
  /-- It goes away. -/
  | idle
  /-- It is a character like others. -/
  | plain
  deriving DecidableEq, Repr

/-- Reads a text as if in double quotes. -/
def double (meaning : DoubleQuote) : (fuel : Nat) → List Char → Except Mistake (Word × List Char)
  | 0, s => fail .unclosedQuote s
  | _ + 1, [] => if meaning = .ending then fail .unclosedQuote [] else .ok ([], [])
  | fuel + 1, c :: rest =>
    let more (part : Part) (rest : List Char) : Except Mistake (Word × List Char) := do
      let (parts, rest) ← double meaning fuel rest
      return (part :: parts, rest)
    if c = '"' && meaning = .ending then .ok ([], rest)
    else if c = '"' && meaning = .idle then double meaning fuel rest
    else if c = '$' then do
      let (part, rest) ← dollar true rest
      more part rest
    else if c = '`' then do
      let (text, rest) ← backquoted rest
      more (.script true text) rest
    else if c = '\\' then
      match rest with
      | '\n' :: rest => double meaning fuel rest
      | d :: behind =>
        if "$`\\".toList.contains d || (d = '"' && meaning ≠ .plain) then
          more (.text true [d]) behind
        else more (.text true [c]) rest
      | [] => more (.text true [c]) rest
    else more (.text true [c]) rest

/-- Reads a word. Unless it is `bounded`, the word is all there is. -/
def word (bounded : Bool) : (fuel : Nat) → List Char → Except Mistake (Word × List Char)
  | 0, s => fail .unclosedQuote s
  | _ + 1, [] => .ok ([], [])
  | fuel + 1, c :: rest =>
    let more (part : Part) (rest : List Char) : Except Mistake (Word × List Char) := do
      let (parts, rest) ← word bounded fuel rest
      return (part :: parts, rest)
    if bounded && endsWord c then .ok ([], c :: rest)
    else if c = '\'' then do
      let (text, rest) ← single rest
      more (.text true text) rest
    else if c = '"' then do
      let (parts, rest) ← double .ending (rest.length + 1) rest
      let (others, rest) ← word bounded fuel rest
      return (.text true [] :: parts ++ others, rest)
    else if c = '\\' then
      match rest with
      | '\n' :: rest => word bounded fuel rest
      | d :: rest => more (.text true [d]) rest
      | [] => more (.text true [c]) []
    else if c = '$' then do
      let (part, rest) ← dollar false rest
      more part rest
    else if c = '`' then do
      let (text, rest) ← backquoted rest
      more (.script false text) rest
    else more (.text false [c]) rest

/-- Reads a word of a command. -/
def commandWord (s : List Char) : Except Mistake (Word × List Char) := word true (s.length + 1) s

/-! ## Redirections -/

/-- Cuts the lines of a document in a script at its delimiter: the document, and what follows. -/
def documentLines (tabs : Bool) (delimiter : List Char) : (fuel : Nat) → List Char →
    List Char × List Char
  | 0, s => (s, [])
  | fuel + 1, s =>
    let line := s.takeWhile (· ≠ '\n')
    let rest := (s.drop line.length).drop 1
    let line := if tabs then line.dropWhile (· = '\t') else line
    if s.isEmpty || line = delimiter then ([], rest)
    else
      let (text, rest) := documentLines tabs delimiter fuel rest
      (line ++ '\n' :: text, rest)

/-- The text of a word without its quotes, and whether it has any. -/
def unquoted (w : Word) : List Char × Bool :=
  (w.flatMap fun
    | .text _ cs => cs
    | _ => [],
  w.any fun
    | .text quoted _ => quoted
    | _ => false)

/-- Reads a document in a script: its lines follow the line that asks for it. -/
def document (descriptor : Nat) (tabs : Bool) (s : List Char) :
    Except Mistake (Redirection × List Char) := do
  let (w, rest) ← commandWord (skip s)
  let (delimiter, quoted) := unquoted w
  let line := rest.takeWhile (· ≠ '\n')
  let lines := (rest.drop line.length).drop 1
  let (text, behind) := documentLines tabs delimiter (lines.length + 1) lines
  let rest := line ++ '\n' :: behind
  if quoted then return (⟨descriptor, .document, [.text true text]⟩, rest)
  else
    let (body, _) ← double .plain (text.length + 1) text
    return (⟨descriptor, .document, body⟩, rest)

/-- Reads a redirection, if one starts a text. -/
def redirection? (s : List Char) : Option (Except Mistake (Redirection × List Char)) :=
  let digits := s.takeWhile Char.isDigit
  let number (missing : Nat) : Nat :=
    if digits.isEmpty then missing else digits.foldl (fun n d => 10 * n + (d.toNat - 48)) 0
  let target (missing : Nat) (direction : Direction) (rest : List Char) :
      Option (Except Mistake (Redirection × List Char)) :=
    some do
      if atWordEnd (skip rest) then unexpected rest none
      else
        let (w, rest) ← commandWord (skip rest)
        return (⟨number missing, direction, w⟩, rest)
  match s.drop digits.length with
  | '<' :: '<' :: '-' :: rest => some (document (number 0) true rest)
  | '<' :: '<' :: rest => some (document (number 0) false rest)
  | '<' :: '&' :: rest => target 0 .duplicate rest
  | '<' :: rest => target 0 .input rest
  | '>' :: '&' :: rest => target 1 .duplicate rest
  | '>' :: '>' :: rest => target 1 .append rest
  | '>' :: '|' :: rest => target 1 .output rest
  | '>' :: rest => target 1 .output rest
  | _ => none

/-- Reads redirections. -/
def redirections : (fuel : Nat) → List Char → Except Mistake (List Redirection × List Char)
  | 0, s => .ok ([], s)
  | fuel + 1, s =>
    match redirection? (skip s) with
    | some reading => do
      let (r, rest) ← reading
      let (more, rest) ← redirections fuel rest
      return (r :: more, rest)
    | none => .ok ([], s)

/-- Reads the redirections behind a command. -/
def redirected (body : Command) (s : List Char) : Except Mistake (Command × List Char) := do
  match ← redirections (s.length + 1) s with
  | ([], rest) => return (body, rest)
  | (rs, rest) => return (.redirected body rs, rest)

/-! ## Commands -/

/-- What a simple command consists of. -/
structure Simple where
  assignments : List (String × Word)
  words : List Word
  redirections : List Redirection

/-- Reads the words of a simple command. -/
def simple : (fuel : Nat) → Simple → List Char → Except Mistake (Simple × List Char)
  | 0, _, s => unexpected s none
  | fuel + 1, found, s =>
    let s := skip s
    match redirection? s with
    | some reading => do
      let (r, rest) ← reading
      simple fuel { found with redirections := found.redirections ++ [r] } rest
    | none =>
      if atWordEnd s then .ok (found, s)
      else
        let name := s.takeWhile isNameChar
        match s.drop name.length, found.words.isEmpty && isName name with
        | '=' :: rest, true => do
          let (w, rest) ← commandWord rest
          simple fuel
            { found with assignments := found.assignments ++ [(String.ofList name, w)] } rest
        | _, _ => do
          let (w, rest) ← commandWord s
          simple fuel { found with words := found.words ++ [w] } rest

/-- Reads the words of a loop up to the end of the line. -/
def loopWords : (fuel : Nat) → List Char → Except Mistake (List Word × List Char)
  | 0, s => unexpected s none
  | fuel + 1, s =>
    let s := skip s
    if atWordEnd s then .ok ([], s)
    else do
      let (w, rest) ← commandWord s
      let (ws, rest) ← loopWords fuel rest
      return (w :: ws, rest)

/-- Reads the patterns of a case up to the parenthesis behind them. -/
def patterns : (fuel : Nat) → List Char → Except Mistake (List Word × List Char)
  | 0, s => unexpected s none
  | fuel + 1, s => do
    let (w, rest) ← commandWord (skip s)
    match skip rest with
    | '|' :: rest => do
      let (ws, rest) ← patterns fuel rest
      return (w :: ws, rest)
    | ')' :: rest => return ([w], rest)
    | rest => unexpected rest (some (shown ")"))

/-- Whether a list of commands ends here. -/
def atCloser (s : List Char) : Bool :=
  match s with
  | [] | ')' :: _ | ';' :: ';' :: _ => true
  | _ => closers.any fun name => (reserved? name s).isSome

/-- Skips what separates the words of a loop from its body. -/
def skipSeparator (s : List Char) : List Char :=
  match skip s with
  | ';' :: rest => rest
  | rest => rest

mutual

/-- Reads a list of commands up to a word that ends it. Unless it may be `empty`, one command has to
be there. -/
def list : (fuel : Nat) → (empty : Bool) → List Char → Except Mistake (Command × List Char)
  | 0, _, s => unexpected s none
  | fuel + 1, empty, s =>
    let s := skipLines s
    if s.isEmpty || (empty && atCloser s) then .ok (.skip, s)
    else do
      let (first, rest) ← andOr fuel s
      let others (rest : List Char) : Except Mistake (Command × List Char) := do
        let (others, rest) ← list fuel true rest
        match others with
        | .sequence commands => return (.sequence (first :: commands), rest)
        | other => return (.sequence [first, other], rest)
      match skip rest with
      | ';' :: ';' :: _ => return (.sequence [first], skip rest)
      | ';' :: rest | '&' :: rest | '\n' :: rest => others rest
      | rest => return (.sequence [first], rest)

/-- Reads commands joined by `&&` and `||`. -/
def andOr : (fuel : Nat) → List Char → Except Mistake (Command × List Char)
  | 0, s => unexpected s none
  | fuel + 1, s => do
    let (first, rest) ← pipeline fuel s
    andOrFrom fuel first rest

/-- Reads what `&&` and `||` join to a command. -/
def andOrFrom : (fuel : Nat) → Command → List Char → Except Mistake (Command × List Char)
  | 0, _, s => unexpected s none
  | fuel + 1, first, s =>
    match skip s with
    | '&' :: '&' :: rest => do
      let (second, rest) ← pipeline fuel (skipLines rest)
      andOrFrom fuel (.both first second) rest
    | '|' :: '|' :: rest => do
      let (second, rest) ← pipeline fuel (skipLines rest)
      andOrFrom fuel (.either first second) rest
    | rest => .ok (first, rest)

/-- Reads a pipeline. -/
def pipeline : (fuel : Nat) → List Char → Except Mistake (Command × List Char)
  | 0, s => unexpected s none
  | fuel + 1, s =>
    match reserved? "!" (skip s) with
    | some rest => do
      let (commands, rest) ← stages fuel rest
      return (.pipeline true commands, rest)
    | none => do
      match ← stages fuel s with
      | ([c], rest) => return (c, rest)
      | (cs, rest) => return (.pipeline false cs, rest)

/-- Reads the commands of a pipeline. -/
def stages : (fuel : Nat) → List Char → Except Mistake (List Command × List Char)
  | 0, s => unexpected s none
  | fuel + 1, s => do
    let (first, rest) ← command fuel (skip s)
    match skip rest with
    | '|' :: '|' :: _ => return ([first], skip rest)
    | '|' :: more => do
      let (others, rest) ← stages fuel (skipLines more)
      return (first :: others, rest)
    | rest => return ([first], rest)

/-- Reads a command. -/
def command : (fuel : Nat) → List Char → Except Mistake (Command × List Char)
  | 0, s => unexpected s none
  | fuel + 1, s =>
    if let '(' :: rest := s then do
      let (body, rest) ← list fuel false rest
      match skipLines rest with
      | ')' :: rest => redirected (.subshell body) rest
      | rest => unexpected rest (some (shown ")"))
    else if let some rest := reserved? "\x7b" s then do
      let (body, rest) ← list fuel false rest
      redirected body (← expect "\x7d" rest)
    else if let some rest := reserved? "if" s then do
      let (body, rest) ← branches fuel rest
      redirected body rest
    else if let some rest := reserved? "while" s then do
      let (body, rest) ← loop fuel true rest
      redirected body rest
    else if let some rest := reserved? "until" s then do
      let (body, rest) ← loop fuel false rest
      redirected body rest
    else if let some rest := reserved? "for" s then do
      let (body, rest) ← forEach fuel (skip rest)
      redirected body rest
    else if let some rest := reserved? "case" s then do
      if atWordEnd (skip rest) then unexpected rest (some "word")
      else
        let (subject, rest) ← commandWord (skip rest)
        let (cases, rest) ← cases fuel (← expect "in" rest)
        redirected (.choice subject cases) rest
    else if atCloser s || (reserved? "!" s).isSome then unexpected s none
    else
      let name := s.takeWhile isNameChar
      match skip (s.drop name.length), name.isEmpty with
      | '(' :: rest, false => do
        match skip rest with
        | ')' :: rest =>
          if isName name then
            let (body, rest) ← command fuel (skipLines rest)
            return (.define (String.ofList name) body, rest)
          else fail .functionName rest
        | rest => unexpected rest (some (shown ")"))
      | _, _ => do
        let (c, rest) ← simple (s.length + 1) ⟨[], [], []⟩ s
        if c.words.isEmpty && c.assignments.isEmpty && c.redirections.isEmpty then
          unexpected rest none
        else return (.simple c.assignments c.words c.redirections, rest)

/-- Reads a condition with what depends on it, up to `fi`. -/
def branches : (fuel : Nat) → List Char → Except Mistake (Command × List Char)
  | 0, s => unexpected s none
  | fuel + 1, s => do
    let (condition, rest) ← list fuel false s
    let (consequence, rest) ← list fuel false (← expect "then" rest)
    let rest := skipLines rest
    if let some rest := reserved? "elif" rest then
      let (alternative, rest) ← branches fuel rest
      return (.conditional condition consequence alternative, rest)
    else if let some rest := reserved? "else" rest then
      let (alternative, rest) ← list fuel false rest
      return (.conditional condition consequence alternative, ← expect "fi" rest)
    else return (.conditional condition consequence .skip, ← expect "fi" rest)

/-- Reads a loop behind its first word. -/
def loop : (fuel : Nat) → Bool → List Char → Except Mistake (Command × List Char)
  | 0, _, s => unexpected s none
  | fuel + 1, whileSucceeding, s => do
    let (condition, rest) ← list fuel false s
    let (body, rest) ← body fuel rest
    return (.loop whileSucceeding condition body, rest)

/-- Reads the body of a loop between `do` and `done`. -/
def body : (fuel : Nat) → List Char → Except Mistake (Command × List Char)
  | 0, s => unexpected s none
  | fuel + 1, s => do
    let (body, rest) ← list fuel false (← expect "do" s)
    return (body, ← expect "done" rest)

/-- Reads a loop over words behind its first word. -/
def forEach : (fuel : Nat) → List Char → Except Mistake (Command × List Char)
  | 0, s => unexpected s none
  | fuel + 1, s =>
    let name := s.takeWhile isNameChar
    let rest := s.drop name.length
    if !isName name || !atWordEnd rest then fail .loopVariable rest
    else
      match reserved? "in" (skipLines rest) with
      | some rest => do
        let (ws, rest) ← loopWords (rest.length + 1) rest
        match rest with
        | ';' :: ';' :: _ => unexpected rest none
        | ';' :: rest | '\n' :: rest => do
          let (body, rest) ← body fuel rest
          return (.forEach (String.ofList name) (some ws) body, rest)
        | _ => unexpected rest none
      | none => do
        let (body, rest) ← body fuel (skipSeparator rest)
        return (.forEach (String.ofList name) none body, rest)

/-- Reads cases up to `esac`. -/
def cases : (fuel : Nat) → List Char → Except Mistake (List (List Word × Command) × List Char)
  | 0, s => unexpected s none
  | fuel + 1, s =>
    let s := skipLines s
    match reserved? "esac" s with
    | some rest => .ok ([], rest)
    | none => do
      let s := match s with
        | '(' :: rest => rest
        | _ => s
      let (ws, rest) ← patterns (s.length + 1) s
      let (body, rest) ← list fuel true rest
      match skipLines rest with
      | ';' :: ';' :: rest => do
        let (others, rest) ← cases fuel rest
        return ((ws, body) :: others, rest)
      | rest =>
        match reserved? "esac" rest with
        | some rest => return ([(ws, body)], rest)
        | none => unexpected rest (some (shown ";;"))

end

/-- Reads the commands of a line, and of the lines that they go on to. -/
def lineFrom : (fuel : Nat) → List Char → Except Mistake (Command × List Char)
  | 0, s => unexpected s none
  | fuel + 1, s =>
    match skip s with
    | [] => .ok (.skip, [])
    | '\n' :: rest => .ok (.skip, rest)
    | s => do
      let (first, rest) ← andOr (2 * s.length + 8) s
      match skip rest with
      | ';' :: ';' :: _ => unexpected rest none
      | ';' :: rest | '&' :: rest => do
        let (others, rest) ← lineFrom fuel rest
        return (.sequence [first, others], rest)
      | '\n' :: rest => return (first, rest)
      | [] => return (first, [])
      | rest => unexpected rest none

/-- Reads the commands of a line, and of the lines that they go on to. -/
def line (s : List Char) : Except Mistake (Command × List Char) := lineFrom (s.length + 1) s

end Script

end LiveDoc.Shell
