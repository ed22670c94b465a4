import LiveDoc.Item.Scan

/-!
# Declarations

What an item looks like, told by its tokens and not by how they are scanned: attributes, visibility,
qualifiers, a keyword, a name, and then what the kind asks for. `Declaration.tokens` are the tokens
of an item, and `Declaration.item` is what should be found for it.

* `Balanced` — brackets are closed; `Clause` has no semicolon outside of them;
* `Header` — what may stand in front of a body: angle brackets are closed as well;
* `Declaration.WellFormed` — the parts fit together.
-/

namespace LiveDoc.Item

/-! ## Brackets -/

/-- Tokens in which every bracket is closed. The shapes of the brackets need not agree. -/
inductive Balanced : List Lexeme → Prop
  | nil : Balanced []
  | single {t : Lexeme} {ts : List Lexeme} : t.kind ≠ .open → t.kind ≠ .close → Balanced ts →
      Balanced (t :: ts)
  | group {o c : Lexeme} {inner ts : List Lexeme} : o.kind = .open → Balanced inner →
      c.kind = .close → Balanced ts → Balanced (o :: (inner ++ c :: ts))

/-- Balanced tokens without a semicolon outside of brackets. -/
inductive Clause : List Lexeme → Prop
  | nil : Clause []
  | single {t : Lexeme} {ts : List Lexeme} : t.kind ≠ .open → t.kind ≠ .close →
      t.kind ≠ .semicolon → Clause ts → Clause (t :: ts)
  | group {o c : Lexeme} {inner ts : List Lexeme} : o.kind = .open → Balanced inner →
      c.kind = .close → Clause ts → Clause (o :: (inner ++ c :: ts))

/-- Balanced tokens that close `angles` angle brackets and all that they open. Only inside of angle
brackets there may be a semicolon, or a group in braces. -/
inductive Header : (angles : Nat) → List Lexeme → Prop
  | nil : Header 0 []
  | single {n : Nat} {t : Lexeme} {ts : List Lexeme} : t.kind ≠ .open → t.kind ≠ .close →
      t.kind ≠ .angleOpen → t.kind ≠ .angleClose → (n = 0 → t.kind ≠ .semicolon) → Header n ts →
      Header n (t :: ts)
  | angleOpen {n : Nat} {t : Lexeme} {ts : List Lexeme} : t.kind = .angleOpen → Header (n + 1) ts →
      Header n (t :: ts)
  | angleClose {n : Nat} {t : Lexeme} {ts : List Lexeme} : t.kind = .angleClose → Header n ts →
      Header (n + 1) (t :: ts)
  | group {n : Nat} {o c : Lexeme} {inner ts : List Lexeme} : o.kind = .open →
      (n = 0 → o.text ≠ ['{']) → Balanced inner → c.kind = .close → Header n ts →
      Header n (o :: (inner ++ c :: ts))

/-! ## In front of a keyword -/

/-- Outer doc comments and attributes `#[...]`. -/
inductive Attributes : List Lexeme → Prop
  | nil : Attributes []
  | doc {t : Lexeme} {ts : List Lexeme} : t.kind = .outerDoc → Attributes ts → Attributes (t :: ts)
  | bracketed {p o c : Lexeme} {inner ts : List Lexeme} : p.kind = .pound → o.kind = .open →
      Balanced inner → c.kind = .close → Attributes ts → Attributes (p :: o :: (inner ++ c :: ts))

/-- Nothing, `pub`, or `pub(...)`. -/
inductive Visibility : List Lexeme → Prop
  | inherited : Visibility []
  | pub {p : Lexeme} : p.isWord "pub" → Visibility [p]
  | restricted {p o c : Lexeme} {inner : List Lexeme} : p.isWord "pub" → o.kind = .open →
      o.text = ['('] → Balanced inner → c.kind = .close → Visibility (p :: o :: (inner ++ [c]))

/-- Some of the qualifiers of a function, from the one of the given rank on: `const`, `async`,
`unsafe`, and `extern` with a literal behind it. -/
inductive Qualifiers : (rank : Nat) → List Lexeme → Prop
  | nil {rank : Nat} : Qualifiers rank []
  | const {t : Lexeme} {ts : List Lexeme} : t.isWord "const" → Qualifiers 1 ts →
      Qualifiers 0 (t :: ts)
  | async {rank : Nat} {t : Lexeme} {ts : List Lexeme} : rank ≤ 1 → t.isWord "async" →
      Qualifiers 2 ts → Qualifiers rank (t :: ts)
  | unsafe' {rank : Nat} {t : Lexeme} {ts : List Lexeme} : rank ≤ 2 → t.isWord "unsafe" →
      Qualifiers 3 ts → Qualifiers rank (t :: ts)
  | extern' {rank : Nat} {t abi : Lexeme} : t.isWord "extern" → abi.kind = .literal →
      Qualifiers rank [t, abi]

/-- The keywords of the kinds of items. -/
def keywords : List (Kind × String) :=
  [(.function, "fn"), (.struct, "struct"), (.enum, "enum"), (.union, "union"), (.trait, "trait"),
    (.module, "mod"), (.impl, "impl"), (.const, "const"), (.static, "static"),
    (.typeAlias, "type"), (.use, "use")]

/-- A word that may be a name. Of the keywords, it matters only that a name is none of those that
may stand in front of a name. -/
def IsName (t : Lexeme) : Prop :=
  t.kind = .word ∧ ∀ s ∈ ["mut", "fn", "unsafe", "async", "extern"], t.text ≠ s.toList

/-- A name without the mark of a raw identifier. -/
def bareName : List Char → List Char
  | 'r' :: '#' :: rest => rest
  | text => text

/-! ## Declarations -/

/-- The end of an item. -/
inductive Ending where
  | semicolon (t : Lexeme)
  | body (opening : Lexeme) (inner : List Lexeme) (closing : Lexeme)

namespace Ending

def tokens : Ending → List Lexeme
  | semicolon t => [t]
  | body o inner c => o :: (inner ++ [c])

/-- The last token of an item. -/
def last : Ending → Lexeme
  | semicolon t => t
  | body _ _ c => c

/-- From the opening brace to the closing one. -/
def bodySpan? : Ending → Option Text.Span
  | semicolon _ => none
  | body o _ c => some ⟨o.span.start, c.span.stop⟩

/-- The inner doc comments at the very start of the body. -/
def docs : Ending → List Text.Span
  | semicolon _ => []
  | body _ inner _ => (inner.takeWhile (·.kind = .innerDoc)).map (·.span)

/-- A semicolon, or a balanced body in braces. -/
inductive WellFormed : Ending → Prop
  | semicolon {t : Lexeme} : t.kind = .semicolon → WellFormed (.semicolon t)
  | body {o c : Lexeme} {inner : List Lexeme} : o.kind = .open → o.text = ['{'] → Balanced inner →
      c.kind = .close → WellFormed (.body o inner c)

end Ending

/-- The parts of an item. -/
structure Declaration where
  attributes : List Lexeme
  visibility : List Lexeme
  qualifiers : List Lexeme
  kind : Kind
  keyword : Lexeme
  /-- The `mut` of a static. -/
  mutability : Option Lexeme
  name : Option Lexeme
  /-- What stands between the name and the end. -/
  header : List Lexeme
  ending : Ending

namespace Declaration

/-- What stands in front of the keyword, without attributes. -/
def modifiers (d : Declaration) : List Lexeme := d.visibility ++ d.qualifiers

/-- What stands behind the keyword. -/
def rest (d : Declaration) : List Lexeme :=
  d.mutability.toList ++ (d.name.toList ++ (d.header ++ d.ending.tokens))

/-- The tokens of an item. -/
def tokens (d : Declaration) : List Lexeme :=
  d.attributes ++ (d.modifiers ++ d.keyword :: d.rest)

/-- The first token of an item. -/
def first (d : Declaration) : Lexeme := (d.attributes ++ d.modifiers).head?.getD d.keyword

/-- What should be found for an item. -/
def item (d : Declaration) : Item where
  kind := d.kind
  name := d.name.map fun t => String.ofList (bareName t.text)
  span := ⟨d.first.span.start, d.ending.last.span.stop⟩
  body := d.ending.bodySpan?
  innerDocs := d.ending.docs

/-- The kinds of items that end with a semicolon whatever comes before it. -/
def semicolonKinds : List Kind := [.const, .static, .typeAlias, .use]

/-- The kinds of items that have no name of their own. -/
def namelessKinds : List Kind := [.impl, .use]

/-- The parts of an item fit together. -/
structure WellFormed (d : Declaration) : Prop where
  attributes : Attributes d.attributes
  visibility : Visibility d.visibility
  /-- Only functions have qualifiers. -/
  qualifiers : Qualifiers 0 d.qualifiers ∧ (d.kind ≠ .function → d.qualifiers = [])
  keyword : ∃ word, (d.kind, word) ∈ keywords ∧ d.keyword.isWord word
  /-- Only statics can be mutable. -/
  mutability : ∀ t ∈ d.mutability, d.kind = .static ∧ t.isWord "mut"
  named : d.kind ∉ namelessKinds → ∃ t, d.name = some t ∧ IsName t
  /-- What has no name is no invocation of a macro. -/
  nameless : d.kind ∈ namelessKinds → d.name = none ∧ kindAt d.rest ≠ some .bang
  clause : d.kind ∈ semicolonKinds → Clause d.header ∧
    ∃ t, d.ending = .semicolon t ∧ t.kind = .semicolon
  header : d.kind ∉ semicolonKinds → Header 0 d.header ∧ d.ending.WellFormed

end Declaration

end LiveDoc.Item
