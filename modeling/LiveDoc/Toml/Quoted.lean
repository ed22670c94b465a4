import LiveDoc.Toml.Value

/-!
# Quoted texts in TOML

There are four ways to quote a text: between single or double quotes, once or three times. Between
double quotes a backslash starts an escape; between three quotes the text may have several lines.
Every reader gets the characters from where a text may start, and gives what follows it.
-/

namespace LiveDoc.Toml

/-- Whether a character may not stand in a quoted text as it is. Line ends are not among them. -/
def isForbidden (c : Char) : Bool := (c.toNat < 32 && c ≠ '\t') || c.toNat == 127

/-- The character with a number, if there is one. -/
def character? (n : Nat) : Option Char :=
  if n < 0xD800 || (0xE000 ≤ n && n ≤ 0x10FFFF) then some (Char.ofNat n) else none

/-- The character with a number of so many digits of base 16, and what follows. -/
def coded? (count : Nat) (s : List Char) : Option (Char × List Char) :=
  let digits := s.take count
  if digits.length = count && digits.all (isDigitOf 16) then
    (character? (number 16 digits)).map fun c => (c, s.drop count)
  else none

/-- Reads an escape behind its backslash. -/
def escape? : List Char → Option (Char × List Char)
  | [] => none
  | c :: rest =>
    match c with
    | 'b' => some ('\x08', rest)
    | 't' => some ('\t', rest)
    | 'n' => some ('\n', rest)
    | 'f' => some ('\x0c', rest)
    | 'r' => some ('\r', rest)
    | 'e' => some ('\x1b', rest)
    | '"' => some ('"', rest)
    | '\\' => some ('\\', rest)
    | 'x' => coded? 2 rest
    | 'u' => coded? 4 rest
    | 'U' => coded? 8 rest
    | _ => none

/-- Reads a text of one line up to a quote; a double quote allows escapes. -/
def line? (quote : Char) : (fuel : Nat) → List Char → Option (List Char × List Char)
  | 0, _ => none
  | _ + 1, [] => none
  | fuel + 1, c :: rest =>
    if c = quote then some ([], rest)
    else if c = '\\' && quote = '"' then
      (escape? rest).bind fun (d, rest) =>
        (line? quote fuel rest).map fun (t, rest) => (d :: t, rest)
    else if isForbidden c then none
    else (line? quote fuel rest).map fun (t, rest) => (c :: t, rest)

/-- What follows a line end. -/
def skipLineEnd? : List Char → Option (List Char)
  | '\n' :: rest => some rest
  | '\r' :: '\n' :: rest => some rest
  | _ => none

/-- Whether a character is a space or a tab. -/
def isSpace (c : Char) : Bool := c = ' ' || c = '\t'

/-- Skips blanks and line ends. -/
def skipBlankLines : (fuel : Nat) → List Char → List Char
  | 0, s => s
  | fuel + 1, s =>
    match s.dropWhile isSpace with
    | [] => []
    | c :: rest =>
      match skipLineEnd? (c :: rest) with
      | some rest => skipBlankLines fuel rest
      | none => c :: rest

/-- Skips what a backslash at the end of a line joins: the line end, and blanks behind it. -/
def skipJoint? (s : List Char) : Option (List Char) :=
  (skipLineEnd? (s.dropWhile isSpace)).map fun rest => skipBlankLines rest.length rest

/-- Reads a text of several lines up to three quotes. Up to two more quotes belong to the text. -/
def lines? (quote : Char) : (fuel : Nat) → List Char → Option (List Char × List Char)
  | 0, _ => none
  | _ + 1, [] => none
  | fuel + 1, c :: rest =>
    let more (d : Char) (rest : List Char) : Option (List Char × List Char) :=
      (lines? quote fuel rest).map fun (t, rest) => (d :: t, rest)
    let quotes := ((c :: rest).takeWhile (· = quote)).length
    if 3 ≤ quotes then
      if quotes ≤ 5 then some (List.replicate (quotes - 3) quote, (c :: rest).drop quotes) else none
    else if c = '\\' && quote = '"' then
      match skipJoint? rest with
      | some rest => lines? quote fuel rest
      | none => (escape? rest).bind fun (d, rest) => more d rest
    else
      match skipLineEnd? (c :: rest) with
      | some rest => more '\n' rest
      | none => if isForbidden c then none else more c rest

/-- Reads a quoted text. Behind three quotes, a line end does not belong to the text. -/
def quoted? (multiline : Bool) : List Char → Option (List Char × List Char)
  | [] => none
  | q :: rest =>
    if q ≠ '"' && q ≠ '\'' then none
    else
      match rest with
      | a :: b :: text =>
        if a = q && b = q && multiline then
          lines? q (text.length + 1) ((skipLineEnd? text).getD text)
        else line? q (rest.length + 1) rest
      | _ => line? q (rest.length + 1) rest

end LiveDoc.Toml
