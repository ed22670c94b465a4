import LiveDoc.Markdown.Entity
import LiveDoc.Markdown.Glyph
import LiveDoc.Text.Punctuation

/-!
# Escapes and character references

Two ways to write a character so that no rule sees it: a backslash before punctuation, and a
reference `&name;`, `&#10;` or `&#xA;`. `Escape.decoded` is the text that is meant by glyphs in
which nothing but these two is special.
-/

namespace LiveDoc.Markdown.Escape

/-- The glyph that is escaped, if a run starts with an escape, and what follows. -/
def escape? : List Glyph → Option (Glyph × List Glyph)
  | b :: g :: rest =>
    if b.char = '\\' && Text.isAsciiPunctuation g.char then some (g, rest) else none
  | _ => none

/-- Whether a number names no character that a text may hold: controls other than blanks,
surrogates, and the characters that are none. -/
def isForbidden (n : Nat) : Bool :=
  n < 9 || n == 11 || (14 ≤ n && n < 32) || (127 ≤ n && n < 160) || (0xD800 ≤ n && n < 0xE000) ||
    (0xFDD0 ≤ n && n < 0xFDF0) || n % 0x10000 ≥ 0xFFFE || 0x10FFFF < n

/-- The character with a number. -/
def numbered (n : Nat) : Char := if isForbidden n then '\uFFFD' else Char.ofNat n

/-- The value of a digit. -/
def digitValue (c : Char) : Nat :=
  if c.isDigit then c.toNat - 48 else if 'a' ≤ c then c.toNat - 87 else c.toNat - 55

/-- Whether a character is a digit of base 16. -/
def isHexDigit (c : Char) : Bool := c.isDigit || ('a' ≤ c && c ≤ 'f') || ('A' ≤ c && c ≤ 'F')

/-- Reads up to `max` characters of a class, at least one, and the semicolon behind them. -/
def terminated? (p : Char → Bool) (max : Nat) (gs : List Glyph) :
    Option (List Char × List Glyph) :=
  let name := gs.takeWhile fun g => p g.char
  match gs.dropWhile fun g => p g.char with
  | g :: rest =>
    if g.char = ';' && name ≠ [] && name.length ≤ max then some (name.map (·.char), rest) else none
  | [] => none

/-- The characters named behind an ampersand, and what follows the name. -/
def named? (rest : List Glyph) : Option (List Char × List Glyph) :=
  (terminated? Char.isAlphanum 31 rest).bind fun (name, rest) =>
    (Entity.characters? name).map fun value => (value, rest)

/-- The character numbered behind an ampersand and a hash, and what follows the number. -/
def numbered? : List Glyph → Option (List Char × List Glyph)
  | x :: rest =>
    if x.char = 'x' || x.char = 'X' then
      (terminated? isHexDigit 6 rest).map fun (digits, rest) =>
        ([numbered (digits.foldl (fun n d => 16 * n + digitValue d) 0)], rest)
    else
      (terminated? Char.isDigit 7 (x :: rest)).map fun (digits, rest) =>
        ([numbered (digits.foldl (fun n d => 10 * n + digitValue d) 0)], rest)
  | [] => none

/-- The characters that are meant, if a run starts with a character reference, and what follows. -/
def reference? : List Glyph → Option (List Char × List Glyph)
  | a :: h :: rest =>
    if a.char ≠ '&' then none
    else if h.char = '#' then numbered? rest
    else named? (h :: rest)
  | _ => none

/-- The text of up to `fuel` glyphs, escapes and references replaced by what they mean. -/
def decodedFrom : (fuel : Nat) → List Glyph → List Char
  | 0, _ => []
  | _ + 1, [] => []
  | fuel + 1, g :: rest =>
    match escape? (g :: rest) with
    | some (e, rest) => e.char :: decodedFrom fuel rest
    | none =>
      match reference? (g :: rest) with
      | some (value, rest) => value ++ decodedFrom fuel rest
      | none => g.source ++ decodedFrom fuel rest

/-- The text of a run of glyphs, escapes and references replaced by what they mean. -/
def decoded (gs : List Glyph) : List Char := decodedFrom gs.length gs

end LiveDoc.Markdown.Escape
