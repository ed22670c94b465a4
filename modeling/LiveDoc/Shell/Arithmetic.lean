import LiveDoc.Shell.Script
import LiveDoc.Store

/-!
# Arithmetic

The integer arithmetic of the shell, on words of 64 bits that wrap around. Variables are read and
assigned by name; one that is not set counts as zero.

* `Formula.parse` reads an expression; the table `infixes` has the operators and how tightly they
  bind;
* `Formula.eval` gives the value and the variables as they are afterwards.
-/

namespace LiveDoc.Shell

/-- Operators between two values. -/
inductive Infix where
  | or | and
  | bitOr | bitXor | bitAnd
  | equal | different
  | atMost | atLeast | less | greater
  | shiftLeft | shiftRight
  | plus | minus
  | times | over | modulo
  deriving DecidableEq, Repr

/-- Operators before a value. -/
inductive Sign where
  | plus | minus | not | bitNot
  deriving DecidableEq, Repr

/-- An expression. -/
inductive Formula where
  | number (n : Int64)
  | variable (name : String)
  | signed (s : Sign) (a : Formula)
  | binary (op : Infix) (a b : Formula)
  | choose (condition a b : Formula)
  /-- Assigns a value, after an operator on the old one if there is one. -/
  | assign (name : String) (op : Option Infix) (a : Formula)
  deriving DecidableEq

/-- Why an expression has no value. -/
inductive FormulaFault where
  | expected (what : String)
  | divisionByZero
  | illegalNumber (text : List Char)
  deriving DecidableEq, Repr

namespace Formula

/-- The operators: the text of each and how tightly it binds. A text comes after those that it
starts. -/
def infixes : List (String × Infix × Nat) :=
  [("||", .or, 1), ("&&", .and, 2), ("|", .bitOr, 3), ("^", .bitXor, 4), ("&", .bitAnd, 5),
    ("==", .equal, 6), ("!=", .different, 6), ("<<", .shiftLeft, 8), (">>", .shiftRight, 8),
    ("<=", .atMost, 7), (">=", .atLeast, 7), ("<", .less, 7), (">", .greater, 7), ("+", .plus, 9),
    ("-", .minus, 9), ("*", .times, 10), ("/", .over, 10), ("%", .modulo, 10)]

/-- The operators that an assignment can have before its equals sign. -/
def assigners : List Infix :=
  [.plus, .minus, .times, .over, .modulo, .shiftLeft, .shiftRight, .bitAnd, .bitOr, .bitXor]

/-! ## Numbers -/

/-- Whether a character is a blank. -/
def isBlank (c : Char) : Bool := c = ' ' || (9 ≤ c.toNat && c.toNat ≤ 13)

/-- The value of a digit in any base up to 16. -/
def digit? (base : Nat) (c : Char) : Option Nat :=
  let n :=
    if c.isDigit then c.toNat - 48
    else if 'a' ≤ c.toLower && c.toLower ≤ 'f' then c.toLower.toNat - 87
    else 16
  if n < base then some n else none

/-- Reads the digits of a number: the value, and what follows. -/
def digits (base value : Nat) : List Char → Nat × List Char
  | [] => (value, [])
  | c :: rest =>
    match digit? base c with
    | some d => digits base (base * value + d) rest
    | none => (value, c :: rest)

/-- Reads a number without a sign, whose start tells its base. -/
def natural (s : List Char) : Nat × List Char :=
  match s with
  | '0' :: x :: rest =>
    if (x = 'x' || x = 'X') && (rest.head?.bind (digit? 16)).isSome then digits 16 0 rest
    else digits 8 0 s
  | _ => digits 10 0 s

/-- Reads an integer of any size at the start of a text, behind blanks: the value, and what follows.
Where no number starts nothing is read. -/
def exactInteger (s : List Char) : Int × List Char :=
  let t := s.dropWhile isBlank
  let (negative, t) : Bool × List Char :=
    match t with
    | '-' :: rest => (true, rest)
    | '+' :: rest => (false, rest)
    | _ => (false, t)
  if t.head?.any Char.isDigit then
    let (n, rest) := natural t
    (if negative then -(n : Int) else n, rest)
  else (0, s)

/-- An integer as a word; one out of range becomes the end of the range. -/
def saturate (n : Int) : Int64 :=
  Int64.ofInt (max Int64.minValue.toInt (min Int64.maxValue.toInt n))

/-- Reads an integer at the start of a text, behind blanks: the value, and what follows. -/
def integer (s : List Char) : Int64 × List Char :=
  let (n, rest) := exactInteger s
  (saturate n, rest)

/-- Whether the integer at the start of a text is none that a word can hold. -/
def isOutOfRange (s : List Char) : Bool :=
  let n := (exactInteger s).1
  n < Int64.minValue.toInt || Int64.maxValue.toInt < n

/-- The value of a text that is to be a number, as that of a variable. -/
def valueOf (s : List Char) : Except FormulaFault Int64 :=
  let (n, rest) := integer s
  if rest.all isBlank then .ok n else .error (.illegalNumber s)

/-! ## Reading -/

/-- The operator at the start of a text, its strength, and what follows. -/
def infix? (s : List Char) : Option (Infix × Nat × List Char) :=
  let s := s.dropWhile isBlank
  (infixes.find? fun (text, _, _) => text.toList.isPrefixOf s).map fun (text, op, strength) =>
    (op, strength, s.drop text.length)

/-- Reads the sign of an assignment. -/
def assigner? (s : List Char) : Option (Option Infix × List Char) :=
  let s := s.dropWhile isBlank
  match s with
  | '=' :: '=' :: _ => none
  | '=' :: rest => some (none, rest)
  | _ =>
    (infix? s).bind fun (op, _, rest) =>
      match rest with
      | '=' :: rest => if assigners.contains op then some (some op, rest) else none
      | _ => none

mutual

/-- Reads an expression: an assignment or a choice. -/
def formula : (fuel : Nat) → List Char → Except FormulaFault (Formula × List Char)
  | 0, _ => .error (.expected "expecting primary")
  | fuel + 1, s =>
    let t := s.dropWhile isBlank
    let name := t.takeWhile Script.isNameChar
    match Script.isName name, assigner? (t.drop name.length) with
    | true, some (op, rest) => do
      let (a, rest) ← formula fuel rest
      return (.assign (String.ofList name) op a, rest)
    | _, _ => do
      let (a, rest) ← operand fuel 1 t
      match rest.dropWhile isBlank with
      | '?' :: rest => do
        let (b, rest) ← formula fuel rest
        match rest.dropWhile isBlank with
        | ':' :: rest => do
          let (c, rest) ← formula fuel rest
          return (.choose a b c, rest)
        | _ => .error (.expected "expecting ':'")
      | rest => return (a, rest)

/-- Reads an expression of operators that bind at least as tightly as `strength`. -/
def operand : (fuel strength : Nat) → List Char → Except FormulaFault (Formula × List Char)
  | 0, _, _ => .error (.expected "expecting primary")
  | fuel + 1, strength, s => do
    let (a, rest) ← primary fuel s
    operandFrom fuel strength a rest

/-- Reads the operators behind an operand. -/
def operandFrom : (fuel strength : Nat) → Formula → List Char →
    Except FormulaFault (Formula × List Char)
  | 0, _, _, _ => .error (.expected "expecting primary")
  | fuel + 1, strength, a, s =>
    match infix? s with
    | some (op, tight, rest) =>
      if strength ≤ tight then do
        let (b, rest) ← operand fuel (tight + 1) rest
        operandFrom fuel strength (.binary op a b) rest
      else .ok (a, s)
    | none => .ok (a, s)

/-- Reads a number, a variable, an expression in parentheses, or one of these behind a sign. -/
def primary : (fuel : Nat) → List Char → Except FormulaFault (Formula × List Char)
  | 0, _ => .error (.expected "expecting primary")
  | fuel + 1, s =>
    let sign (s : Sign) (rest : List Char) : Except FormulaFault (Formula × List Char) := do
      let (a, rest) ← primary fuel rest
      return (.signed s a, rest)
    match s.dropWhile isBlank with
    | '-' :: rest => sign .minus rest
    | '+' :: rest => sign .plus rest
    | '!' :: rest => sign .not rest
    | '~' :: rest => sign .bitNot rest
    | '(' :: rest => do
      let (a, rest) ← formula fuel rest
      match rest.dropWhile isBlank with
      | ')' :: rest => return (a, rest)
      | _ => .error (.expected "expecting ')'")
    | c :: rest =>
      if c.isDigit then
        let (n, rest) := natural (c :: rest)
        .ok (.number (saturate n), rest)
      else if Script.startsName c then
        let name := (c :: rest).takeWhile Script.isNameChar
        .ok (.variable (String.ofList name), (c :: rest).drop name.length)
      else .error (.expected "expecting primary")
    | [] => .error (.expected "expecting primary")

end

/-- Reads an expression. -/
def parse (s : List Char) : Except FormulaFault Formula := do
  let (a, rest) ← formula (4 * s.length + 8) s
  if rest.all isBlank then return a else .error (.expected "expecting EOF")

/-! ## Values -/

/-- The word for a truth value. -/
def truth (b : Bool) : Int64 := if b then 1 else 0

/-- The value of a sign before a value. -/
def signedValue (s : Sign) (a : Int64) : Int64 :=
  match s with
  | .plus => a
  | .minus => -a
  | .not => truth (a = 0)
  | .bitNot => ~~~a

/-- The value of an operator between two values. -/
def binaryValue (op : Infix) (a b : Int64) : Except FormulaFault Int64 :=
  match op with
  | .or => .ok (truth (a ≠ 0 || b ≠ 0))
  | .and => .ok (truth (a ≠ 0 && b ≠ 0))
  | .bitOr => .ok (a ||| b)
  | .bitXor => .ok (a ^^^ b)
  | .bitAnd => .ok (a &&& b)
  | .equal => .ok (truth (a = b))
  | .different => .ok (truth (a ≠ b))
  | .atMost => .ok (truth (a ≤ b))
  | .atLeast => .ok (truth (b ≤ a))
  | .less => .ok (truth (a < b))
  | .greater => .ok (truth (b < a))
  | .shiftLeft => .ok (a <<< b)
  | .shiftRight => .ok (a >>> b)
  | .plus => .ok (a + b)
  | .minus => .ok (a - b)
  | .times => .ok (a * b)
  | .over => if b = 0 then .error .divisionByZero else .ok (a / b)
  | .modulo => if b = 0 then .error .divisionByZero else .ok (a % b)

/-- The decimal text of a word. -/
def text (n : Int64) : List Char := (toString n.toInt).toList

/-- The value of a variable. -/
def variableValue (store : Store (List Char)) (name : String) : Except FormulaFault Int64 :=
  valueOf ((store.get? name).getD [])

/-- The value of an expression, and the variables afterwards. What does not decide is not
evaluated. -/
def eval (store : Store (List Char)) :
    Formula → Except FormulaFault (Int64 × Store (List Char))
  | .number n => .ok (n, store)
  | .variable name => (variableValue store name).map fun n => (n, store)
  | .signed s a => do
    let (n, store) ← eval store a
    return (signedValue s n, store)
  | .binary op a b => do
    let (m, store) ← eval store a
    if op = .or && m ≠ 0 then return (1, store)
    else if op = .and && m = 0 then return (0, store)
    else
      let (n, store) ← eval store b
      return (← binaryValue op m n, store)
  | .choose condition a b => do
    let (n, store) ← eval store condition
    if n ≠ 0 then eval store a else eval store b
  | .assign name op a => do
    let (n, store) ← eval store a
    let n ← match op with
      | some op => binaryValue op (← variableValue store name) n
      | none => pure n
    return (n, store.put name (text n))

end Formula

end LiveDoc.Shell
