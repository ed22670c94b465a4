import LiveDoc.Error

/-!
# Tokens of expressions

A source is cut into tokens from left to right, the longest possible token at each place. Blanks
between tokens are space, tab, carriage return, line feed and form feed.

* `Token.next?` reads one token, `tokens` all of them;
* where no token can be read, the fault names the piece that was tried: an unclosed string up to
  where it stopped being one, otherwise a single character.
-/

namespace LiveDoc

/-- The kinds of tokens. -/
inductive Token.Kind where
  | parenOpen
  | parenClose
  | comma
  | equals
  | identifier
  | string
  | integer
  | float
  deriving DecidableEq, Repr

/-- A token: its kind and its text in the source. -/
structure Token where
  kind : Token.Kind
  text : List Char
  deriving DecidableEq, Repr

namespace Token

/-- The blanks between tokens. -/
def isSpace (c : Char) : Bool :=
  c = ' ' || c = '\t' || c = '\r' || c = '\n' || c = '\x0c'

/-- The characters that can start an identifier. -/
def isIdentifierStart (c : Char) : Bool := c.isAlpha || c = '_'

/-- The characters that can stand inside an identifier. -/
def isIdentifierPart (c : Char) : Bool := c.isAlphanum || c = '_'

/-- The text of a string literal behind its opening quote, with what follows it. A backslash takes
any character but a line feed with it. Without a closing quote, the text read until then. -/
def quotedBody (quote : Char) : List Char → Except (List Char) (List Char × List Char)
  | [] => .error []
  | c :: rest =>
    if c = quote then .ok ([c], rest)
    else if c = '\\' then
      match rest with
      | [] => .error ['\\']
      | d :: more =>
        if d = '\n' then .error ['\\']
        else
          match quotedBody quote more with
          | .ok (body, after) => .ok (c :: d :: body, after)
          | .error piece => .error (c :: d :: piece)
    else
      match quotedBody quote rest with
      | .ok (body, after) => .ok (c :: body, after)
      | .error piece => .error (c :: piece)

/-- Digits at the start of a text, and what follows them. -/
def digits (s : List Char) : List Char × List Char := s.span Char.isDigit

/-- An exponent at the start of a text: `e` or `E`, a sign if any, digits. -/
def exponent? : List Char → Option (List Char × List Char)
  | e :: rest =>
    if e = 'e' || e = 'E' then
      let (sign, rest) :=
        match rest with
        | c :: more => if c = '+' || c = '-' then ([c], more) else ([], rest)
        | [] => ([], rest)
      let (ds, after) := digits rest
      if ds.isEmpty then none else some (e :: sign ++ ds, after)
    else none
  | [] => none

/-- A fraction at the start of a text: a point and digits. -/
def fraction? : List Char → Option (List Char × List Char)
  | '.' :: rest =>
    let (ds, after) := digits rest
    if ds.isEmpty then none else some ('.' :: ds, after)
  | _ => none

/-- What can follow the whole digits of a number: a fraction with or without an exponent, an
exponent alone, or nothing, which makes it an integer. -/
def numberTail (s : List Char) : Kind × List Char × List Char :=
  match fraction? s with
  | some (fraction, rest) =>
    match exponent? rest with
    | some (exponent, after) => (.float, fraction ++ exponent, after)
    | none => (.float, fraction, rest)
  | none =>
    match exponent? s with
    | some (exponent, after) => (.float, exponent, after)
    | none => (.integer, [], s)

/-- A number whose sign has been read. -/
def number? (sign s : List Char) : Option (Token × List Char) :=
  let (whole, rest) := digits s
  if whole.isEmpty then none
  else
    let (kind, tail, after) := numberTail rest
    some (⟨kind, sign ++ whole ++ tail⟩, after)

/-- The token at the start of a text that starts with the character `c`, and what follows it. If
there is none, the piece that was tried. -/
def read (c : Char) (rest : List Char) : Except (List Char) (Token × List Char) :=
  if c = '(' then .ok (⟨.parenOpen, [c]⟩, rest)
  else if c = ')' then .ok (⟨.parenClose, [c]⟩, rest)
  else if c = ',' then .ok (⟨.comma, [c]⟩, rest)
  else if c = '=' then .ok (⟨.equals, [c]⟩, rest)
  else if isIdentifierStart c then
    let (name, after) := rest.span isIdentifierPart
    .ok (⟨.identifier, c :: name⟩, after)
  else if c = '"' || c = '\'' then
    match quotedBody c rest with
    | .ok (body, after) => .ok (⟨.string, c :: body⟩, after)
    | .error piece => .error (c :: piece)
  else
    match if c = '-' then number? [c] rest else number? [] (c :: rest) with
    | some result => .ok result
    | none => .error [c]

/-- Reads up to `fuel` tokens and blanks. -/
def readAll : (fuel place : Nat) → List Char → Except ExprFault (List Token)
  | 0, _, _ => .ok []
  | _ + 1, _, [] => .ok []
  | fuel + 1, place, c :: rest =>
    if isSpace c then readAll fuel (place + 1) rest
    else
      match read c rest with
      | .error piece => .error (.noToken (String.ofList piece) place)
      | .ok (token, after) =>
        match readAll fuel (place + Text.byteLength token.text) after with
        | .ok more => .ok (token :: more)
        | .error fault => .error fault

/-- All tokens of a source. Every token takes a character, so the length is fuel enough. -/
def tokens (source : List Char) : Except ExprFault (List Token) :=
  readAll source.length 0 source

end Token

end LiveDoc
