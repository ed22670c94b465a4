import LiveDoc.Text.Utf8

/-!
# Texts of the shell

The shell handles texts byte by byte. Its texts are lists of characters below 256, one for each
byte; `charsOf` and `stringOf` go between them and texts as everyone else reads them.
-/

namespace LiveDoc.Shell

/-- The text of bytes, a character for each. -/
def ofBytes (bytes : List UInt8) : List Char := bytes.map fun b => Char.ofNat b.toNat

/-- The bytes of a text. -/
def toBytes (s : List Char) : List UInt8 := s.map fun c => UInt8.ofNat c.toNat

/-- A text as the shell handles it. -/
def charsOf (s : String) : List Char := ofBytes (Text.encode s.toList)

/-- A text of the shell as everyone else reads it. -/
def stringOf (s : List Char) : String := String.ofList (Text.decodeLossy (toBytes s))

end LiveDoc.Shell
