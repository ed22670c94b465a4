/-!
# Pieces of Rust source

A source file is cut into pieces: blanks, comments, literals, words, and single marks. Only what is
needed to find where items start and end is told apart; any other character is a piece of its own.

* `pieces` cuts a whole text, and the texts of the pieces, put together, are the text;
* a comment or literal that is not closed runs to the end of the text.
-/

namespace LiveDoc.Item

/-- The kinds of pieces. -/
inductive Piece.Kind where
  | blank
  | lineComment
  | blockComment
  /-- A string, with escapes or raw. -/
  | string
  /-- A character literal, or the quote that starts a lifetime or a label. -/
  | quote
  | word
  | number
  | open
  | close
  | semicolon
  | less
  | greater
  /-- `->` or `=>`. -/
  | arrow
  | pound
  | bang
  | unknown
  deriving DecidableEq, Repr

/-- A piece of a source text. -/
structure Piece where
  kind : Piece.Kind
  text : List Char
  deriving DecidableEq, Repr

namespace Piece

/-- The blanks between pieces. -/
def isSpace (c : Char) : Bool :=
  c = ' ' || c = '\t' || c = '\r' || c = '\n' || c = '\x0c'

/-- The characters that can start a word. -/
def isWordStart (c : Char) : Bool := c.isAlpha || c = '_'

/-- The characters that can stand inside a word or a number. -/
def isWordPart (c : Char) : Bool := c.isAlphanum || c = '_'

/-! Each of the following takes the rest of a piece from the start of a text. The first component
is what was taken, the second what is left. -/

/-- The rest of a block comment. Block comments nest; `depth` of them are open. -/
def blockRest : (depth : Nat) → List Char → List Char × List Char
  | _, [] => ([], [])
  | _, [c] => ([c], [])
  | depth, c :: d :: rest =>
    if c = '/' && d = '*' then
      let (taken, left) := blockRest (depth + 1) rest
      (c :: d :: taken, left)
    else if c = '*' && d = '/' then
      if depth ≤ 1 then ([c, d], rest)
      else
        let (taken, left) := blockRest (depth - 1) rest
        (c :: d :: taken, left)
    else
      let (taken, left) := blockRest depth (d :: rest)
      (c :: taken, left)

/-- The rest of a string with escapes. A backslash takes the next character with it. -/
def stringRest : List Char → List Char × List Char
  | [] => ([], [])
  | c :: rest =>
    if c = '"' then ([c], rest)
    else if c = '\\' then
      match rest with
      | [] => ([c], [])
      | d :: more =>
        let (taken, left) := stringRest more
        (c :: d :: taken, left)
    else
      let (taken, left) := stringRest rest
      (c :: taken, left)

/-- The rest of a raw string, which ends at the first quote with `hashes` hashes behind it. -/
def rawRest (hashes : Nat) : List Char → List Char × List Char
  | [] => ([], [])
  | c :: rest =>
    if c = '"' && (List.replicate hashes '#').isPrefixOf rest then
      (c :: rest.take hashes, rest.drop hashes)
    else
      let (taken, left) := rawRest hashes rest
      (c :: taken, left)

/-- Up to and with the first single quote, or everything. -/
def throughQuote : List Char → List Char × List Char
  | [] => ([], [])
  | c :: rest =>
    if c = '\'' then ([c], rest)
    else
      let (taken, left) := throughQuote rest
      (c :: taken, left)

/-- The rest of a character literal, if one follows the quote. An escape runs to the next quote
behind its first character. Otherwise only a single character with a quote behind it is a literal;
the quote of a lifetime stands alone. -/
def quoteRest : List Char → List Char × List Char
  | '\\' :: [] => (['\\'], [])
  | '\\' :: c :: rest =>
    let (taken, left) := throughQuote rest
    ('\\' :: c :: taken, left)
  | c :: '\'' :: rest => ([c, '\''], rest)
  | s => ([], s)

/-- How many hashes a text starts with. -/
def hashCount (s : List Char) : Nat := (s.takeWhile (· = '#')).length

/-- A string, a literal or a word at the start of a text, where `word` has been read. The words
`r`, `br` and `cr` can start a raw string, `b` and `c` a string, `b` a character literal, and
`r#` a word that would otherwise be a keyword. -/
def wordPiece (word after : List Char) : Piece × List Char :=
  let hashes := hashCount after
  let isRaw := word = ['r'] || word = ['b', 'r'] || word = ['c', 'r']
  if isRaw && (after.drop hashes).head? = some '"' then
    let (taken, left) := rawRest hashes (after.drop (hashes + 1))
    (⟨.string, word ++ after.take (hashes + 1) ++ taken⟩, left)
  else
    match after with
    | c :: rest =>
      if c = '"' && (word = ['b'] || word = ['c']) then
        let (taken, left) := stringRest rest
        (⟨.string, word ++ c :: taken⟩, left)
      else if c = '\'' && word = ['b'] then
        let (taken, left) := quoteRest rest
        (⟨.quote, word ++ c :: taken⟩, left)
      else if c = '#' && word = ['r'] && (rest.head?.any isWordStart) then
        let (taken, left) := rest.span isWordPart
        (⟨.word, word ++ c :: taken⟩, left)
      else (⟨.word, word⟩, after)
    | [] => (⟨.word, word⟩, [])

/-- The piece at the start of the text `c :: rest`, and what is left behind it. -/
def read (c : Char) (rest : List Char) : Piece × List Char :=
  if isSpace c then
    let (taken, left) := rest.span isSpace
    (⟨.blank, c :: taken⟩, left)
  else if c = '/' && rest.head? = some '/' then
    let (taken, left) := rest.span (· ≠ '\n')
    (⟨.lineComment, c :: taken⟩, left)
  else if c = '/' && rest.head? = some '*' then
    let (taken, left) := blockRest 1 rest.tail
    (⟨.blockComment, c :: rest.take 1 ++ taken⟩, left)
  else if c = '"' then
    let (taken, left) := stringRest rest
    (⟨.string, c :: taken⟩, left)
  else if c = '\'' then
    let (taken, left) := quoteRest rest
    (⟨.quote, c :: taken⟩, left)
  else if isWordStart c then
    let (word, after) := rest.span isWordPart
    wordPiece (c :: word) after
  else if c.isDigit then
    let (taken, left) := rest.span isWordPart
    (⟨.number, c :: taken⟩, left)
  else if (c = '-' || c = '=') && rest.head? = some '>' then
    (⟨.arrow, c :: rest.take 1⟩, rest.tail)
  else
    let kind : Kind :=
      if c = '{' || c = '(' || c = '[' then .open
      else if c = '}' || c = ')' || c = ']' then .close
      else if c = ';' then .semicolon
      else if c = '<' then .less
      else if c = '>' then .greater
      else if c = '#' then .pound
      else if c = '!' then .bang
      else .unknown
    (⟨kind, [c]⟩, rest)

/-- Cuts a text into up to `fuel` pieces. -/
def readAll : (fuel : Nat) → List Char → List Piece
  | 0, _ => []
  | _ + 1, [] => []
  | fuel + 1, c :: rest =>
    let (piece, left) := read c rest
    piece :: readAll fuel left

end Piece

/-- The pieces of a text. No piece is empty, so the length is fuel enough. -/
def pieces (source : List Char) : List Piece := Piece.readAll source.length source

end LiveDoc.Item
