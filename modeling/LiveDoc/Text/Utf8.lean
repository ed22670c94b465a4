/-!
# Bytes as text

Bytes of a program's output are read as UTF-8 whatever they are: each longest start of a character
that the bytes break off, and each byte that starts no character, is read as U+FFFD.
-/

namespace LiveDoc.Text

/-- The character that stands for bytes that are none. -/
def replacement : Char := '\ufffd'

/-- Whether a byte continues a character. -/
def isTail (b : UInt8) : Bool := 0x80 ≤ b && b ≤ 0xBF

/-- The bytes that can follow the first byte of a character of several bytes, as a range, and how
many bytes follow. Some first bytes narrow the range, so that no character has two forms and none
is a surrogate or out of range. -/
def tailOf? (b : UInt8) : Option (Nat × UInt8 × UInt8) :=
  if 0xC2 ≤ b && b ≤ 0xDF then some (1, 0x80, 0xBF)
  else if b = 0xE0 then some (2, 0xA0, 0xBF)
  else if b = 0xED then some (2, 0x80, 0x9F)
  else if 0xE1 ≤ b && b ≤ 0xEF then some (2, 0x80, 0xBF)
  else if b = 0xF0 then some (3, 0x90, 0xBF)
  else if b = 0xF4 then some (3, 0x80, 0x8F)
  else if 0xF1 ≤ b && b ≤ 0xF3 then some (3, 0x80, 0xBF)
  else none

/-- Where a reader of bytes stands: between characters, or inside one, with the value read so far,
how many bytes are still to come, and the range of the next one. -/
inductive Utf8State where
  | between
  | inside (value owed : Nat) (low high : UInt8)

/-- The state after a byte that does not continue a character, and the character it makes. -/
def Utf8State.start (b : UInt8) : Utf8State × List Char :=
  if b < 0x80 then (.between, [Char.ofNat b.toNat])
  else
    match tailOf? b with
    | some (1, low, high) => (.inside (b.toNat - 0xC0) 1 low high, [])
    | some (2, low, high) => (.inside (b.toNat - 0xE0) 2 low high, [])
    | some (owed, low, high) => (.inside (b.toNat - 0xF0) owed low high, [])
    | none => (.between, [replacement])

/-- Reads bytes as text from a state on. -/
def decodeFrom : Utf8State → List UInt8 → List Char
  | .between, [] => []
  | .inside _ _ _ _, [] => [replacement]
  | .between, b :: rest =>
    let (state, cs) := Utf8State.start b
    cs ++ decodeFrom state rest
  | .inside value owed low high, b :: rest =>
    if low ≤ b && b ≤ high then
      let value := 64 * value + (b.toNat - 0x80)
      if owed ≤ 1 then Char.ofNat value :: decodeFrom .between rest
      else decodeFrom (.inside value (owed - 1) 0x80 0xBF) rest
    else
      let (state, cs) := Utf8State.start b
      replacement :: cs ++ decodeFrom state rest

/-- The text that bytes are read as. -/
def decodeLossy (bytes : List UInt8) : List Char := decodeFrom .between bytes

/-- The bytes of a text. -/
def encode (s : List Char) : List UInt8 := s.flatMap String.utf8EncodeChar

end LiveDoc.Text
