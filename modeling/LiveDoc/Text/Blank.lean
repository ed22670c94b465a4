/-!
# Blanks

The white space of Unicode, the trimming of texts by it, and the cutting of a text into the
words between blanks.

* `isBlank` is the property White_Space: 25 characters, the ASCII blanks among them;
* `trim` removes blanks at both ends;
* `words` are the maximal blank-free pieces.
-/

namespace LiveDoc.Text

/-- The characters with the Unicode property White_Space. -/
def isBlank (c : Char) : Bool :=
  let n := c.toNat
  (9 ≤ n && n ≤ 13) || n == 0x20 || n == 0x85 || n == 0xA0 || n == 0x1680 ||
    (0x2000 ≤ n && n ≤ 0x200A) || n == 0x2028 || n == 0x2029 || n == 0x202F ||
    n == 0x205F || n == 0x3000

/-- Keeps what `p` refuses at the end: the longest suffix of `p`-characters goes. -/
def dropEndWhile (p : Char → Bool) (s : List Char) : List Char :=
  (s.reverse.dropWhile p).reverse

/-- The text from its first character that is no blank. -/
def trimStart (s : List Char) : List Char := s.dropWhile isBlank

/-- The text up to its last character that is no blank. -/
def trimEnd (s : List Char) : List Char := dropEndWhile isBlank s

/-- The text without the blanks at its ends. -/
def trim (s : List Char) : List Char := trimEnd (trimStart s)

/-- `trim` on strings. -/
def trimmed (s : String) : String := String.ofList (trim s.toList)

/-- Whether a text holds nothing but blanks. -/
def isBlankText (s : List Char) : Bool := s.all isBlank

/-- Cuts a text at blanks; `word` is what was read of the current word, reversed. -/
def wordsFrom (word : List Char) : List Char → List (List Char)
  | [] => if word.isEmpty then [] else [word.reverse]
  | c :: rest =>
    if isBlank c then
      if word.isEmpty then wordsFrom [] rest else word.reverse :: wordsFrom [] rest
    else wordsFrom (c :: word) rest

/-- The words of a text: its maximal pieces without a blank, in order. -/
def words (s : List Char) : List (List Char) := wordsFrom [] s

end LiveDoc.Text
