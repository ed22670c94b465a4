import LiveDoc.Markdown.Glyph

/-!
# HTML in Markdown

HTML is kept as it is; the rules only say where it ends. `Html.inline?` reads a tag, a comment, an
instruction, a declaration or character data in running text. `Html.Block.open?` tells whether a
line starts a block of HTML, and of which kind; `Html.Block.closedBy` tells whether a line ends it.
-/

namespace LiveDoc.Markdown.Html

/-- What follows the first place where the characters stand. -/
def after? (pattern : List Char) : List Glyph → Option (List Glyph)
  | [] => if pattern.isEmpty then some [] else none
  | g :: rest =>
    if Glyph.startsWith pattern (g :: rest) then some ((g :: rest).drop pattern.length)
    else after? pattern rest

/-! ## Tags -/

/-- Whether a character may be in the name of a tag. -/
def isNameChar (c : Char) : Bool := c.isAlphanum || c = '-'

/-- Whether a character may start the name of an attribute. Where a line starts a block, digits may
do so as well. -/
def startsAttribute (block : Bool) (c : Char) : Bool :=
  c.isAlpha || c = ':' || c = '_' || (block && c.isDigit)

/-- Whether a character may be in the name of an attribute. -/
def isAttributeChar (c : Char) : Bool := c.isAlphanum || c = '-' || c = '.' || c = ':' || c = '_'

/-- Whether a glyph separates the parts of a tag. -/
def isSeparator (g : Glyph) : Bool := g.isSpace || g.isLineEnd

/-- Whether a character ends a value that is not quoted. -/
def endsBareValue (g : Glyph) : Bool :=
  isSeparator g || ['"', '\'', '/', '<', '=', '>', '`'].contains g.char

/-- Whether the tag goes on with a separator, or comes to its end. -/
def valueMayEnd : List Glyph → Bool
  | g :: _ => isSeparator g || g.char = '/' || g.char = '>'
  | [] => false

/-- Skips the value of an attribute. -/
def value? (block : Bool) (gs : List Glyph) : Option (List Glyph) :=
  match gs with
  | [] => none
  | g :: rest =>
    if g.char = '"' || g.char = '\'' then
      match after? [g.char] rest with
      | some rest => if valueMayEnd rest then some rest else none
      | none => none
    else if g.char = '<' || g.char = '=' || g.char = '>' || g.char = '`' then none
    else
      let rest := rest.dropWhile fun h => !endsBareValue h
      if block || valueMayEnd rest then some rest else none

/-- Skips attributes up to the end of a tag. `named` tells whether a value may stand here. -/
def attributes? (block : Bool) : (fuel : Nat) → (named : Bool) → List Glyph → Option (List Glyph)
  | 0, _, _ => none
  | fuel + 1, named, gs =>
    match gs.dropWhile isSeparator with
    | [] => none
    | g :: rest =>
      if named && g.char = '=' then
        (value? block (rest.dropWhile isSeparator)).bind (attributes? block fuel block)
      else if g.char = '>' then some rest
      else if g.char = '/' then
        match rest with
        | h :: rest => if h.char = '>' then some rest else none
        | [] => none
      else if startsAttribute block g.char then
        attributes? block fuel true (rest.dropWhile fun h => isAttributeChar h.char)
      else none

/-- Skips what follows the name of a closing tag. -/
def closingTag? (gs : List Glyph) : Option (List Glyph) :=
  match gs.dropWhile isSeparator with
  | g :: rest => if g.char = '>' then some rest else none
  | [] => none

/-- Skips what follows the name of an opening tag. -/
def openingTag? (block : Bool) (gs : List Glyph) : Option (List Glyph) :=
  if valueMayEnd gs then attributes? block (gs.length + 1) false gs else none

/-- Whether a run starts with an ASCII letter. -/
def startsWithLetter : List Glyph → Bool
  | g :: _ => g.char.isAlpha
  | [] => false

/-! ## HTML in running text -/

/-- Skips what follows `<!`. -/
def markup? (gs : List Glyph) : Option (List Glyph) :=
  if Glyph.startsWith ['-', '-'] gs then after? ['-', '-', '>'] gs
  else if Glyph.startsWith "[CDATA[".toList gs then after? [']', ']', '>'] (gs.drop 7)
  else if startsWithLetter gs then after? ['>'] gs
  else none

/-- What follows the HTML that a run starts with. A comment may be as short as `<!-->`. -/
def inline? : List Glyph → Option (List Glyph)
  | [] => none
  | g :: rest =>
    if g.char ≠ '<' then none
    else
      match rest with
      | [] => none
      | h :: tail =>
        if h.char = '!' then markup? tail
        else if h.char = '?' then after? ['?', '>'] tail
        else if h.char = '/' then
          if startsWithLetter tail then closingTag? (tail.dropWhile fun h => isNameChar h.char)
          else none
        else if h.char.isAlpha then
          openingTag? false (tail.dropWhile fun h => isNameChar h.char)
        else none

/-! ## Blocks of HTML -/

/-- The kinds of blocks. They differ in what ends them. -/
inductive Block where
  /-- An element whose content is no HTML, up to a closing tag. -/
  | raw
  | comment
  | instruction
  | declaration
  | characterData
  /-- A well-known block element, up to a blank line. -/
  | basic
  /-- Any other tag alone on its line, up to a blank line. -/
  | complete
  deriving DecidableEq, Repr

/-- The elements whose content is no HTML. -/
def rawNames : List String := ["pre", "script", "style", "textarea"]

/-- The elements that are blocks. -/
def blockNames : List String :=
  ["address", "article", "aside", "base", "basefont", "blockquote", "body", "caption", "center",
    "col", "colgroup", "dd", "details", "dialog", "dir", "div", "dl", "dt", "fieldset",
    "figcaption", "figure", "footer", "form", "frame", "frameset", "h1", "h2", "h3", "h4", "h5",
    "h6", "head", "header", "hr", "html", "iframe", "legend", "li", "link", "main", "menu",
    "menuitem", "nav", "noframes", "ol", "optgroup", "option", "p", "param", "search", "section",
    "summary", "table", "tbody", "td", "tfoot", "th", "thead", "title", "tr", "track", "ul"]

/-- A name in small letters. -/
def nameOf (gs : List Glyph) : String := String.ofList (gs.map fun g => g.char.toLower)

/-- Whether a line holds spaces only. -/
def isRest : Option (List Glyph) → Bool
  | some gs => gs.all Glyph.isSpace
  | none => false

/-- Whether a line that goes on behind `<` or `</` starts a block with a tag. -/
def tagBlock? (closing interrupting : Bool) (gs : List Glyph) : Option Block :=
  let name := nameOf (gs.takeWhile fun g => isNameChar g.char)
  let rest := gs.dropWhile fun g => isNameChar g.char
  if !startsWithLetter gs || !(rest.isEmpty || valueMayEnd rest) then none
  else
    let slash := Glyph.startsWith ['/'] rest
    if !slash && !closing && rawNames.contains name then some .raw
    else if blockNames.contains name then
      if !slash || Glyph.startsWith ['/', '>'] rest then some .basic else none
    else if interrupting then none
    else if isRest (if closing then closingTag? rest else openingTag? true rest) then some .complete
    else none

/-- The kind of block that a line starts, from its first glyph that is no space on. A tag that is no
well-known element does not interrupt a paragraph. -/
def Block.open? (interrupting : Bool) : List Glyph → Option Block
  | [] => none
  | g :: rest =>
    if g.char ≠ '<' then none
    else if Glyph.startsWith ['!', '-', '-'] rest then some .comment
    else if Glyph.startsWith "![CDATA[".toList rest then some .characterData
    else if Glyph.startsWith ['!'] rest && startsWithLetter (rest.drop 1) then some .declaration
    else if Glyph.startsWith ['?'] rest then some .instruction
    else if Glyph.startsWith ['/'] rest then tagBlock? true interrupting (rest.drop 1)
    else tagBlock? false interrupting rest

/-- Whether a line holds the closing tag of an element whose content is no HTML. -/
def closesRaw : List Glyph → Bool
  | [] => false
  | g :: rest =>
    let name := (rest.drop 1).takeWhile fun h => h.char.isAlpha
    (g.char = '<' && Glyph.startsWith ['/'] rest && rawNames.contains (nameOf name) &&
      Glyph.startsWith ['>'] (rest.drop (1 + name.length))) || closesRaw rest

/-- Whether a line ends character data. Brackets are taken in pairs. -/
def closesData : List Glyph → Bool
  | g :: h :: rest =>
    if g.char = ']' && h.char = ']' then Glyph.startsWith ['>'] rest || closesData rest
    else closesData (h :: rest)
  | _ => false

/-- Whether a line of a block is its last one because of what it holds. For the first line, this is
what follows the two glyphs that it starts with. -/
def Block.closedBy (kind : Block) (gs : List Glyph) : Bool :=
  match kind with
  | raw => closesRaw gs
  | comment => (after? ['-', '-', '>'] gs).isSome
  | instruction => (after? ['?', '>'] gs).isSome
  | declaration => (after? ['>'] gs).isSome
  | characterData => closesData gs
  | basic | complete => false

/-- Whether the first line of a block is its last one as well. -/
def Block.closedAtOnce (kind : Block) (gs : List Glyph) : Bool :=
  match kind with
  | instruction => kind.closedBy (gs.drop 1)
  | _ => kind.closedBy (gs.drop 2)

/-- Whether a blank line ends a block. -/
def Block.endsAtBlank : Block → Bool
  | basic | complete => true
  | _ => false

end LiveDoc.Markdown.Html
