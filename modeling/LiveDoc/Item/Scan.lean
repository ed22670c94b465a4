import LiveDoc.Item.Lexeme

/-!
# Top-level items of Rust source

Walks the significant tokens of a file and collects its top-level items. A place among the tokens
is the list of tokens from there on.

* `matchingClose`, `semicolonFrom` and `bodyOrSemicolonFrom` look ahead for the end of a group, of
  an item without a body, and of a header. Where there is no such end they answer with the last
  token of the file.
* `scanItem` reads one item, `scan` all of them.
-/

namespace LiveDoc.Item

/-- The kinds of items. -/
inductive Kind where
  | function
  | struct
  | enum
  | union
  | trait
  | impl
  | module
  | const
  | static
  | typeAlias
  | macroRules
  | use
  | externCrate
  | externBlock
  deriving DecidableEq, Repr

namespace Kind

/-- The kind of item that a keyword starts. -/
def ofKeyword? (keyword : List Char) : Option Kind :=
  [("fn", function), ("struct", struct), ("enum", enum), ("union", union), ("trait", trait),
    ("impl", impl), ("mod", module), ("const", const), ("static", static), ("type", typeAlias),
    ("macro_rules", macroRules), ("use", use)].findSome? fun (word, kind) =>
      if word.toList = keyword then some kind else none

/-- Functions and the kinds of types whose body can be left out. -/
def hasStrippableBody : Kind → Bool
  | function | struct | enum | union | trait => true
  | _ => false

/-- Whether a name follows the keyword. -/
def isNamed : Kind → Bool
  | impl | use | externCrate | externBlock => false
  | _ => true

/-- Items that end with a semicolon even when braces come before it. -/
def endsWithSemicolon : Kind → Bool
  | const | static | typeAlias | use | externCrate => true
  | _ => false

end Kind

end LiveDoc.Item

namespace LiveDoc

open Text (Span)

/-- A top-level item. -/
structure Item where
  kind : Item.Kind
  name : Option String
  /-- From the first attribute, doc comment or qualifier to the closing brace or semicolon. -/
  span : Span
  /-- From the opening of the body to its close. -/
  body : Option Span
  /-- The inner doc comments at the very start of the body. -/
  innerDocs : List Span
  deriving DecidableEq, Repr

namespace Item

/-! ## Looking ahead

`last` is the last token of the file. -/

/-- The place of the token that closes `depth` open groups. -/
def matchingClose (last : Lexeme) : (depth : Nat) → List Lexeme → List Lexeme
  | _, [] => [last]
  | depth, t :: rest =>
    match t.kind with
    | .open => matchingClose last (depth + 1) rest
    | .close => if depth ≤ 1 then t :: rest else matchingClose last (depth - 1) rest
    | _ => matchingClose last depth rest

/-- The place behind the group that starts here. -/
def skipGroup (last : Lexeme) (ts : List Lexeme) : List Lexeme := (matchingClose last 0 ts).tail

/-- The place of the first semicolon outside groups, of which `depth` are open. -/
def semicolonFrom (last : Lexeme) : (depth : Nat) → List Lexeme → List Lexeme
  | _, [] => [last]
  | depth, t :: rest =>
    match t.kind with
    | .open => semicolonFrom last (depth + 1) rest
    | .close => semicolonFrom last (depth - 1) rest
    | .semicolon => if depth = 0 then t :: rest else semicolonFrom last depth rest
    | _ => semicolonFrom last depth rest

/-- The place of the first semicolon or opening brace outside groups and angle brackets, of which
`depth` and `angles` are open. -/
def bodyOrSemicolonFrom (last : Lexeme) : (depth angles : Nat) → List Lexeme → List Lexeme
  | _, _, [] => [last]
  | depth, angles, t :: rest =>
    match t.kind with
    | .open =>
      if depth = 0 && angles = 0 && t.text = ['{'] then t :: rest
      else bodyOrSemicolonFrom last (depth + 1) angles rest
    | .close => bodyOrSemicolonFrom last (depth - 1) angles rest
    | .semicolon =>
      if depth = 0 && angles = 0 then t :: rest else bodyOrSemicolonFrom last depth angles rest
    | .angleOpen =>
      bodyOrSemicolonFrom last depth (if depth = 0 then angles + 1 else angles) rest
    | .angleClose =>
      bodyOrSemicolonFrom last depth (if depth = 0 then angles - 1 else angles) rest
    | _ => bodyOrSemicolonFrom last depth angles rest

/-- The text of the token at a place, nothing at the end of the file. -/
def textAt (ts : List Lexeme) : List Char := (ts.head?.map (·.text)).getD []

/-- The kind of the token at a place. -/
def kindAt (ts : List Lexeme) : Option Lexeme.Kind := ts.head?.map (·.kind)

/-- Whether the token at a place is the given word. -/
def isWordAt (s : String) (ts : List Lexeme) : Bool := ts.head?.any (Lexeme.isWord s)

/-- The place behind visibility and qualifiers, where the keyword of an item should stand. A
qualifier counts only in front of what it can qualify, so that `const X: u8` and `extern "C" {` keep
their first word. -/
def skipModifiers (last : Lexeme) : (fuel : Nat) → List Lexeme → List Lexeme
  | 0, ts => ts
  | fuel + 1, ts =>
    let text := textAt ts
    let next := ts.tail
    if text = "pub".toList then
      skipModifiers last fuel <|
        if kindAt next = some .open && textAt next = ['('] then skipGroup last next else next
    else if text = "const".toList &&
        ["fn", "unsafe", "async", "extern"].any (isWordAt · next) then
      skipModifiers last fuel next
    else if text = "extern".toList && kindAt next = some .literal &&
        !isWordAt "crate" next.tail && kindAt next.tail ≠ some .open then
      skipModifiers last fuel next.tail
    else if text = "extern".toList && isWordAt "fn" next then
      skipModifiers last fuel next
    else if ["async", "unsafe", "default", "auto", "safe"].any (·.toList = text) &&
        kindAt next = some .word then
      skipModifiers last fuel next
    else ts

/-! ## Items -/

/-- What the keyword at a place starts, if it starts an item. -/
def keywordAt? (ts : List Lexeme) : Option Kind :=
  if textAt ts = "extern".toList then
    some (if isWordAt "crate" ts.tail then .externCrate else .externBlock)
  else if textAt ts = "union".toList && kindAt ts.tail ≠ some .word then none
  else Kind.ofKeyword? (textAt ts)

/-- The place where the name of an item should stand, from the place behind its keyword. -/
def namePlace (kind : Kind) (ts : List Lexeme) : List Lexeme :=
  if kind = .static && isWordAt "mut" ts then ts.tail
  else if kind = .macroRules && kindAt ts = some .bang then ts.tail
  else ts

/-- The name at a place, without the mark of a raw identifier. -/
def nameAt? (ts : List Lexeme) : Option String :=
  if kindAt ts = some .word then
    let text := textAt ts
    some (String.ofList (if Lexeme.starts "r#" text then text.drop 2 else text))
  else none

/-- The place where an item ends, and the place where its body opens if it has one. `ts` is the
place behind the name, or behind the keyword of a nameless item. -/
def extent (last : Lexeme) (kind : Kind) (ts : List Lexeme) : List Lexeme × Option (List Lexeme) :=
  if kind.endsWithSemicolon then (semicolonFrom last 0 ts, none)
  else if kind = .macroRules then
    let close := matchingClose last 0 ts
    if textAt ts = ['{'] then (close, some ts) else (semicolonFrom last 0 close.tail, none)
  else
    let stop := bodyOrSemicolonFrom last 0 0 ts
    if kindAt stop = some .open then (matchingClose last 0 stop, some stop) else (stop, none)

/-- The end of the token at a place. -/
def endAt (last : Lexeme) (ts : List Lexeme) : Nat := (ts.head?.getD last).span.stop

/-- The start of the token at a place. -/
def startAt (last : Lexeme) (ts : List Lexeme) : Nat := (ts.head?.getD last).span.start

/-- The inner doc comments right behind the token at a place. -/
def innerDocsAfter (ts : List Lexeme) : List Span :=
  (ts.tail.takeWhile (·.kind = .innerDoc)).map (·.span)

/-- Reads what starts with the word at a place, and goes on behind it. A macro invocation and a
word that starts no item give no item. `start` is where the item starts, with its attributes. -/
def scanItem (last : Lexeme) (start : Nat) (ts : List Lexeme) : Option Item × List Lexeme :=
  let keyword := skipModifiers last (ts.length + 1) ts
  if textAt keyword ≠ "macro_rules".toList && kindAt keyword.tail = some .bang then
    let opening := keyword.tail.tail
    let close := matchingClose last 0 opening
    if textAt opening ≠ ['{'] && kindAt close.tail = some .semicolon then (none, close.tail.tail)
    else (none, close.tail)
  else
    match keywordAt? keyword with
    | none => (none, keyword.tail)
    | some kind =>
      let place := namePlace kind keyword.tail
      let (stop, body) := extent last kind (if kind.isNamed then place.tail else keyword.tail)
      let item : Item :=
        { kind
          name := if kind.isNamed then nameAt? place else none
          span := ⟨start, endAt last stop⟩
          body := body.map fun opening => ⟨startAt last opening, endAt last stop⟩
          innerDocs := (body.map innerDocsAfter).getD [] }
      (some item, stop.tail)

/-- Reads items until the end of the file. `pending` is where the attributes and doc comments that
wait for their item start. -/
def scanFrom (last : Lexeme) : (fuel : Nat) → (pending : Option Nat) → List Lexeme → List Item
  | 0, _, _ => []
  | _ + 1, _, [] => []
  | fuel + 1, pending, t :: rest =>
    match t.kind with
    | .outerDoc => scanFrom last fuel (pending.or (some t.span.start)) rest
    | .pound =>
      let isInner := kindAt rest = some .bang
      let opening := if isInner then rest.tail else rest
      let pending := if isInner then pending else pending.or (some t.span.start)
      scanFrom last fuel pending <|
        if kindAt opening = some .open then skipGroup last opening else opening
    | .word =>
      let (item, after) := scanItem last (pending.getD t.span.start) (t :: rest)
      match item with
      | some item => item :: scanFrom last fuel none after
      | none => scanFrom last fuel none after
    | _ => scanFrom last fuel none rest

/-- The items that a list of significant tokens holds. -/
def scanLexemes (ts : List Lexeme) : List Item :=
  match ts.getLast? with
  | none => []
  | some last => scanFrom last ts.length none ts

/-- Every top-level item of a source text, in order. -/
def scan (source : List Char) : List Item := scanLexemes (lexemes source)

end Item

end LiveDoc
