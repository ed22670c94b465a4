import LiveDoc.Expr.Token

/-!
# Literals

The values of literal tokens. Integers have 64 bits. Strings without a backslash stand for the text
between their quotes; otherwise the text is first written as one between double quotes, and its
escapes are read there.
-/

namespace LiveDoc.Literal

/-! ## Numbers -/

/-- The number that decimal digits stand for. -/
def decimalValue (ds : List Char) : Nat :=
  ds.foldl (fun n d => 10 * n + (d.toNat - '0'.toNat)) 0

/-- The value of an integer token. -/
def integer (text : List Char) : Except NumberFault Int64 :=
  match text with
  | '-' :: ds =>
    let n := decimalValue ds
    if n ≤ Nat.pow 2 63 then .ok (Int64.ofInt (-n)) else .error .tooSmall
  | ds =>
    let n := decimalValue ds
    if n < Nat.pow 2 63 then .ok (Int64.ofInt n) else .error .tooLarge

/-- The value of a decimal integer with a sign of its own. -/
def signedValue : List Char → Int
  | '-' :: ds => -decimalValue ds
  | '+' :: ds => decimalValue ds
  | ds => decimalValue ds

/-- The value of a number token with a fraction or an exponent. -/
def float (text : List Char) : Binary64 :=
  let (negative, text) :=
    match text with
    | '-' :: rest => (true, rest)
    | _ => (false, text)
  let (whole, rest) := text.span Char.isDigit
  let (fraction, rest) :=
    match rest with
    | '.' :: more => more.span Char.isDigit
    | _ => ([], rest)
  let exponent :=
    match rest with
    | _ :: ds => signedValue ds
    | [] => 0
  Binary64.ofDecimal negative (decimalValue (whole ++ fraction)) (exponent - fraction.length)

/-! ## Strings -/

/-- The value of a digit in base sixteen. -/
def hexValue? (c : Char) : Option Nat :=
  if c.isDigit then some (c.toNat - '0'.toNat)
  else if 'a' ≤ c && c ≤ 'f' then some (c.toNat - 'a'.toNat + 10)
  else if 'A' ≤ c && c ≤ 'F' then some (c.toNat - 'A'.toNat + 10)
  else none

/-- Reads hexadecimal digits onto `n`, which stays below `2 ^ 32`. -/
def hexFrom (n : Nat) : List Char → Except NumberFault Nat
  | [] => .ok n
  | c :: rest =>
    match hexValue? c with
    | none => .error .invalidDigit
    | some d => if 16 * n + d < UInt32.size then hexFrom (16 * n + d) rest else .error .tooLarge

/-- A number below `2 ^ 32` in base sixteen; a plus sign may stand before it. -/
def hexNumber : List Char → Except NumberFault Nat
  | [] => .error .empty
  | '+' :: c :: rest => hexFrom 0 (c :: rest)
  | s => hexFrom 0 s

/-- The character with the code point given between braces, and what follows the closing brace.
Without a closing brace everything left is taken for digits. -/
def codePoint : List Char → Except CodePointFault (Char × List Char)
  | '{' :: rest =>
    let ds := rest.takeWhile (· ≠ '}')
    match hexNumber ds with
    | .error fault => .error (.noNumber (String.ofList ds) fault)
    | .ok n =>
      if h : n.isValidChar then .ok (Char.ofNatAux n h, (rest.drop ds.length).tail)
      else .error (.noCharacter n)
  | _ => .error .noBrace

/-- The character that a backslash and `c` stand for, if no code point follows. -/
def simpleEscape? (c : Char) : Option Char :=
  match c with
  | 'a' => some '\x07'
  | 'b' => some '\x08'
  | 'v' => some '\x0b'
  | 'f' => some '\x0c'
  | 'n' => some '\n'
  | 'r' => some '\r'
  | 't' => some '\t'
  | 'e' | 'E' => some '\x1b'
  | '\\' | '\'' | '"' | '$' | '`' | ' ' => some c
  | _ => none

/-- Reads the escapes of a text between double quotes. The quotes themselves go, and behind the
closing one nothing is expected. `whole` is the text for messages and `place` counts its
characters; `fuel` bounds the length of what is left. -/
def unescapeFrom (whole : List Char) : (fuel place : Nat) → List Char →
    Except EscapeFault (List Char)
  | 0, _, _ => .ok []
  | _ + 1, _, [] => .ok []
  | fuel + 1, place, c :: rest =>
    if c = '"' then .ok []
    else if c = '\\' then
      match rest with
      | [] => .error (.unknown "\\" place (String.ofList whole))
      | 'u' :: more =>
        match codePoint more with
        | .error fault => .error (.codePoint fault (place + 1) (String.ofList whole))
        | .ok (d, after) =>
          (unescapeFrom whole fuel (place + 2 + (more.length - after.length)) after).map (d :: ·)
      | e :: more =>
        match simpleEscape? e with
        | some d => (unescapeFrom whole fuel (place + 2) more).map (d :: ·)
        | none =>
          .error (.unknown (String.ofList ['\\', e]) (place + 1) (String.ofList whole))
    else (unescapeFrom whole fuel (place + 1) rest).map (c :: ·)

/-- Writes the inside of a string as the inside of one between double quotes: a single quote needs
no backslash there, a double quote does. -/
def requote : List Char → List Char
  | [] => []
  | '\\' :: c :: rest => if c = '\'' then '\'' :: requote rest else '\\' :: c :: requote rest
  | c :: rest => if c = '"' then '\\' :: '"' :: requote rest else c :: requote rest

/-- The text between the quotes of a string token. -/
def inside (text : List Char) : List Char := text.tail.dropLast

/-- The value of a string token. -/
def string (text : List Char) : Except EscapeFault (List Char) :=
  let body := inside text
  if body.contains '\\' then
    let whole := '"' :: requote body ++ ['"']
    unescapeFrom whole whole.length 1 whole.tail
  else .ok body

/-- The literal that an identifier stands for, if it is one of the literal words. -/
def word? (text : List Char) : Option Value :=
  if text = "true".toList || text = "True".toList then some (.bool true)
  else if text = "false".toList || text = "False".toList then some (.bool false)
  else if text = "none".toList || text = "None".toList then some .none
  else none

end LiveDoc.Literal
