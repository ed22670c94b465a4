import LiveDoc.Expr.Basic

/-!
# The grammar of expressions

`Derives` says which lists of tokens are writings of an expression. What counts as a literal is a
parameter, so that the same grammar serves narrow and wide notions of literal tokens.

* `readExpr_of_derives`, `readArguments_of_derives` — the reader finds whatever the grammar
  derives, also with more tokens behind it;
* `ofTokens_of_derives` — so a whole derived list is read as its expression;
* `Derives.separated` — of two neighbouring tokens of a writing one is a mark.
-/

namespace LiveDoc

namespace Token

/-- An identifier: a letter or an underscore, then letters, digits and underscores. -/
def IsIdentifier (text : List Char) : Prop :=
  ∃ c rest, text = c :: rest ∧ isIdentifierStart c = true ∧ ∀ d ∈ rest, isIdentifierPart d = true

/-- An identifier can be told from its characters. -/
theorem isIdentifier_iff {text : List Char} :
    IsIdentifier text ↔ text.head?.any isIdentifierStart = true ∧
      text.tail.all isIdentifierPart = true := by
  constructor
  · rintro ⟨c, rest, rfl, hc, hrest⟩
    exact ⟨hc, List.all_eq_true.mpr hrest⟩
  · rintro ⟨hc, hrest⟩
    cases text with
    | nil => exact absurd hc (by simp)
    | cons c rest => exact ⟨c, rest, rfl, hc, List.all_eq_true.mp hrest⟩

instance (text : List Char) : Decidable (IsIdentifier text) :=
  decidable_of_iff _ isIdentifier_iff.symm

/-- The identifiers that stand for literals. -/
def literalWords : List String := ["true", "True", "false", "False", "none", "None"]

/-- A name: an identifier that is none of the literal words. -/
structure IsName (text : List Char) : Prop where
  identifier : IsIdentifier text
  noWord : ∀ word ∈ literalWords, text ≠ word.toList

/-- An identifier as a token. -/
def ofIdentifier (text : List Char) : Token := ⟨.identifier, text⟩

/-- The parenthesis that opens the arguments of a call. -/
def opening : Token := ⟨.parenOpen, ['(']⟩

/-- The parenthesis that closes the arguments of a call. -/
def closing : Token := ⟨.parenClose, [')']⟩

/-- The comma behind an argument. -/
def separator : Token := ⟨.comma, [',']⟩

/-- The equals sign between a keyword and its value. -/
def binding : Token := ⟨.equals, ['=']⟩

/-- The value that the reader of expressions gives a token on its own. -/
inductive Denotes : Token → Value → Prop where
  | word {text : List Char} {v : Value} :
    Literal.word? text = some v → Denotes ⟨.identifier, text⟩ v
  | string {text : List Char} {v : Value} :
      Expr.stringLiteral text = .ok v → Denotes ⟨.string, text⟩ v
  | integer {text : List Char} {v : Value} :
      Expr.integerLiteral text = .ok v → Denotes ⟨.integer, text⟩ v
  | float (text : List Char) : Denotes ⟨.float, text⟩ (.float (Literal.float text))

/-- A text stands for no literal exactly when it is none of the literal words. -/
theorem word?_eq_none_iff {text : List Char} :
    Literal.word? text = none ↔ ∀ word ∈ literalWords, text ≠ word.toList := by
  simp only [Literal.word?, literalWords, List.forall_mem_cons, Bool.or_eq_true, decide_eq_true_eq]
  split
  · grind
  · split
    · grind
    · split
      · grind
      · grind

/-! ## Neighbouring tokens -/

/-- A mark: a parenthesis, a comma or an equals sign. -/
def IsMark (t : Token) : Prop := t ∈ [opening, closing, separator, binding]

/-- Of any two neighbouring tokens one is a mark, so no space is needed between them. -/
inductive Separated : List Token → Prop where
  | nil : Separated []
  | single (t : Token) : Separated [t]
  | cons {t u : Token} {rest : List Token} : IsMark t ∨ IsMark u → Separated (u :: rest) →
      Separated (t :: u :: rest)

theorem Separated.mark_cons {t : Token} {rest : List Token} (ht : IsMark t)
    (h : Separated rest) : Separated (t :: rest) := by
  cases rest with
  | nil => exact .single t
  | cons u more => exact .cons (.inl ht) h

theorem Separated.tail {t : Token} {rest : List Token} (h : Separated (t :: rest)) :
    Separated rest := by
  cases h with
  | single t => exact .nil
  | cons _ hrest => exact hrest

/-- A mark separates the tokens on its two sides. -/
theorem Separated.append_mark {ts us : List Token} {m : Token} (hm : IsMark m)
    (hts : Separated ts) (hus : Separated us) : Separated (ts ++ m :: us) := by
  induction hts with
  | nil => exact hus.mark_cons hm
  | single t => exact .cons (.inr hm) (hus.mark_cons hm)
  | cons h _ ih => exact .cons h ih

theorem isMark_opening : IsMark opening := by simp [IsMark]

theorem isMark_closing : IsMark closing := by simp [IsMark]

theorem isMark_separator : IsMark separator := by simp [IsMark]

theorem isMark_binding : IsMark binding := by simp [IsMark]

end Token

namespace Expr

open Token

variable {lit : Token → Value → Prop}

/-! ## Derivations -/

mutual

/-- The tokens are a writing of the expression. -/
inductive Derives (lit : Token → Value → Prop) : Expr → List Token → Prop where
  | literal {token : Token} {v : Value} : lit token v → Derives lit (.literal v) [token]
  | name {n : List Char} : IsName n → Derives lit (.name (String.ofList n)) [ofIdentifier n]
  | call {f : List Char} {positional : List Expr} {keywords : List (String × Expr)}
      {tokens : List Token} : IsName f → DerivesArguments lit positional keywords tokens →
      Derives lit (.call (String.ofList f) positional keywords)
        (ofIdentifier f :: opening :: (tokens ++ [closing]))

/-- The tokens are a writing of the arguments of a call: positional ones, then keyword ones. Each
is followed by a comma; only the last one may do without. -/
inductive DerivesArguments (lit : Token → Value → Prop) :
    List Expr → List (String × Expr) → List Token → Prop where
  | nil : DerivesArguments lit [] [] []
  | lastPositional {e : Expr} {tokens : List Token} : Derives lit e tokens →
      DerivesArguments lit [e] [] tokens
  | positional {e : Expr} {positional : List Expr} {keywords : List (String × Expr)}
      {tokens more : List Token} : Derives lit e tokens →
      DerivesArguments lit positional keywords more →
      DerivesArguments lit (e :: positional) keywords (tokens ++ separator :: more)
  | lastKeyword {key : List Char} {e : Expr} {tokens : List Token} : IsIdentifier key →
      Derives lit e tokens →
      DerivesArguments lit [] [(String.ofList key, e)] (ofIdentifier key :: binding :: tokens)
  | keyword {key : List Char} {e : Expr} {keywords : List (String × Expr)}
      {tokens more : List Token} : IsIdentifier key → Derives lit e tokens →
      DerivesArguments lit [] keywords more →
      DerivesArguments lit [] ((String.ofList key, e) :: keywords)
        (ofIdentifier key :: binding :: (tokens ++ separator :: more))

end

/-! ## What may stand around an expression -/

/-- What may follow an expression: nothing, a comma, or a closing parenthesis. -/
def EndsExpr (rest : List Token) : Prop :=
  ∀ t ∈ rest.head?, t.kind = .comma ∨ t.kind = .parenClose

/-- What may follow an expression so that the reader stops behind it: an opening parenthesis would
make a call of a bare name. -/
def Stops (e : Expr) (rest : List Token) : Prop :=
  ∀ n, e = .name n → ∀ t ∈ rest.head?, t.kind ≠ .parenOpen

theorem EndsExpr.stops {rest : List Token} (h : EndsExpr rest) (e : Expr) : Stops e rest := by
  intro n _ t ht
  rcases h t ht with hk | hk <;> simp [hk]

/-- Tokens that the reader of arguments takes for a positional one: they start neither with a
closing parenthesis nor with an identifier in front of an equals sign. -/
inductive StartsPositional : List Token → Prop where
  | single {t : Token} : t.kind ≠ .parenClose → StartsPositional [t]
  | more {t u : Token} {rest : List Token} : t.kind ≠ .parenClose →
      (t.kind = .identifier → u.kind ≠ .equals) → StartsPositional (t :: u :: rest)

theorem endsExpr_nil : EndsExpr [] := by
  intro t ht
  simp at ht

theorem endsExpr_separator (rest : List Token) : EndsExpr (separator :: rest) := by
  intro t ht
  obtain rfl : separator = t := by simpa using ht
  exact .inl rfl

theorem endsExpr_closing (rest : List Token) : EndsExpr (closing :: rest) := by
  intro t ht
  obtain rfl : closing = t := by simpa using ht
  exact .inr rfl

theorem startsPositional_cons {t : Token} {rest : List Token} (ht : t.kind ≠ .parenClose)
    (h : EndsExpr rest) : StartsPositional (t :: rest) := by
  cases rest with
  | nil => exact .single ht
  | cons u more =>
    refine .more ht fun _ => ?_
    rcases h u rfl with hu | hu
    · simp [hu]
    · simp [hu]

/-! ## The steps of the reader -/

theorem readExpr_of_denotes {t : Token} {v : Value} (h : Denotes t v) (fuel : Nat)
    (rest : List Token) : readExpr (fuel + 1) (t :: rest) = .ok (.literal v, rest) := by
  cases h with
  | word hw => simp [readExpr, hw]
  | string hs => simp [readExpr, hs, Except.map]
  | integer hi => simp [readExpr, hi, Except.map]
  | float text => simp [readExpr]

theorem readExpr_name {n : List Char} (hn : IsName n) (fuel : Nat) {rest : List Token}
    (h : Stops (.name (String.ofList n)) rest) :
    readExpr (fuel + 1) (ofIdentifier n :: rest) = .ok (.name (String.ofList n), rest) := by
  have hword := word?_eq_none_iff.mpr hn.noWord
  cases rest with
  | nil => simp [readExpr, ofIdentifier, hword]
  | cons u more =>
    obtain ⟨kind, text⟩ := u
    have hkind : kind ≠ .parenOpen := h _ rfl _ rfl
    cases kind <;> simp_all [readExpr, ofIdentifier]

theorem readExpr_call {f : List Char} (hf : IsName f) (fuel : Nat) (rest : List Token) :
    readExpr (fuel + 1) (ofIdentifier f :: opening :: rest) =
      readArguments fuel (String.ofList f) [] [] rest := by
  have hword := word?_eq_none_iff.mpr hf.noWord
  simp [readExpr, ofIdentifier, opening, hword]

theorem readArguments_closing (fuel : Nat) (f : String) (positional : List Expr)
    (keywords : List (String × Expr)) (rest : List Token) :
    readArguments (fuel + 1) f positional keywords (closing :: rest) =
      .ok (.call f positional keywords, rest) := by
  simp [readArguments, closing]

theorem readArguments_keyword (fuel : Nat) (f : String) (positional : List Expr)
    (keywords : List (String × Expr)) (key : List Char) {tokens rest : List Token} {e : Expr}
    (h : readExpr fuel tokens = .ok (e, rest)) :
    readArguments (fuel + 1) f positional keywords (ofIdentifier key :: binding :: tokens) =
      readSeparator fuel f positional (keywords ++ [(String.ofList key, e)]) rest := by
  simp [readArguments, ofIdentifier, binding, h]

theorem readArguments_positional (fuel : Nat) (f : String) (positional : List Expr)
    {tokens rest : List Token} {e : Expr} (hstart : StartsPositional tokens)
    (h : readExpr fuel tokens = .ok (e, rest)) :
    readArguments (fuel + 1) f positional [] tokens =
      readSeparator fuel f (positional ++ [e]) [] rest := by
  cases hstart with
  | @single t ht =>
    obtain ⟨kind, text⟩ := t
    cases kind <;> simp_all [readArguments]
  | @more t u more ht hu =>
    obtain ⟨kind, text⟩ := t
    obtain ⟨kind', text'⟩ := u
    cases kind <;> cases kind' <;> simp_all [readArguments]

theorem readSeparator_separator (fuel : Nat) (f : String) (positional : List Expr)
    (keywords : List (String × Expr)) (rest : List Token) :
    readSeparator (fuel + 1) f positional keywords (separator :: rest) =
      readArguments fuel f positional keywords rest := by
  simp [readSeparator, separator]

theorem readSeparator_closing (fuel : Nat) (f : String) (positional : List Expr)
    (keywords : List (String × Expr)) (rest : List Token) :
    readSeparator (fuel + 1) f positional keywords (closing :: rest) =
      .ok (.call f positional keywords, rest) := by
  simp [readSeparator, closing]

/-! ## The reader finds what the grammar derives -/

theorem Derives.startsPositional (hlit : ∀ t v, lit t v → Denotes t v) {e : Expr}
    {tokens rest : List Token} (h : Derives lit e tokens) (hrest : EndsExpr rest) :
    StartsPositional (tokens ++ rest) := by
  cases h with
  | literal hl =>
    refine startsPositional_cons ?_ hrest
    cases hlit _ _ hl <;> simp
  | name hn => exact startsPositional_cons (by simp [ofIdentifier]) hrest
  | call hf hargs => exact .more (by simp [ofIdentifier]) (by simp [opening])

theorem Derives.length_pos {e : Expr} {tokens : List Token} (h : Derives lit e tokens) :
    0 < tokens.length := by
  cases h <;> simp

mutual

/-- Two steps for each token are enough to read an expression. -/
theorem readExpr_of_derives (hlit : ∀ t v, lit t v → Denotes t v) {e : Expr} {tokens : List Token} :
    Derives lit e tokens → ∀ (rest : List Token) (fuel : Nat), Stops e rest →
      2 * tokens.length ≤ fuel → readExpr fuel (tokens ++ rest) = .ok (e, rest)
  | .literal hl, rest, fuel, _, hfuel => by
    obtain ⟨fuel, rfl⟩ : ∃ n, fuel = n + 1 := ⟨fuel - 1, by simp at hfuel; omega⟩
    exact readExpr_of_denotes (hlit _ _ hl) fuel rest
  | .name hn, rest, fuel, hrest, hfuel => by
    obtain ⟨fuel, rfl⟩ : ∃ n, fuel = n + 1 := ⟨fuel - 1, by simp at hfuel; omega⟩
    exact readExpr_name hn fuel hrest
  | @Derives.call _ f _ _ _ hf hargs, rest, fuel, _, hfuel => by
    obtain ⟨fuel, rfl⟩ : ∃ n, fuel = n + 1 := ⟨fuel - 1, by simp at hfuel; omega⟩
    have hread := readArguments_of_derives hlit hargs (String.ofList f) [] [] rest fuel (.inl rfl)
      (by simp at hfuel; omega)
    rw [List.cons_append, List.cons_append, List.append_assoc, readExpr_call hf]
    exact hread

/-- The reader of arguments adds the derived ones to those it has. Positional ones can only be
added while there is no keyword. -/
theorem readArguments_of_derives (hlit : ∀ t v, lit t v → Denotes t v) {more : List Expr}
    {moreKeywords : List (String × Expr)} {tokens : List Token} :
    DerivesArguments lit more moreKeywords tokens → ∀ (f : String) (positional : List Expr)
      (keywords : List (String × Expr)) (rest : List Token) (fuel : Nat),
      keywords = [] ∨ more = [] → 2 * tokens.length + 1 ≤ fuel →
      readArguments fuel f positional keywords (tokens ++ closing :: rest) =
        .ok (.call f (positional ++ more) (keywords ++ moreKeywords), rest)
  | .nil, f, positional, keywords, rest, fuel, _, hfuel => by
    obtain ⟨fuel, rfl⟩ : ∃ n, fuel = n + 1 := ⟨fuel - 1, by omega⟩
    rw [List.append_nil, List.append_nil]
    exact readArguments_closing fuel f positional keywords rest
  | .lastPositional he, f, positional, keywords, rest, fuel, hkinds, hfuel => by
    obtain rfl : keywords = [] := by simpa using hkinds
    have hpos := he.length_pos
    obtain ⟨fuel, rfl⟩ : ∃ n, fuel = n + 2 := ⟨fuel - 2, by omega⟩
    have hend := endsExpr_closing rest
    have hread := readExpr_of_derives hlit he _ (fuel + 1) (hend.stops _) (by omega)
    rw [readArguments_positional _ f positional (he.startsPositional hlit hend) hread]
    exact readSeparator_closing fuel f _ _ rest
  | @DerivesArguments.positional _ e _ _ _ others he hmore, f, positional, keywords, rest, fuel,
      hkinds, hfuel => by
    obtain rfl : keywords = [] := by simpa using hkinds
    have hpos := he.length_pos
    rw [List.length_append, List.length_cons] at hfuel
    obtain ⟨fuel, rfl⟩ : ∃ n, fuel = n + 2 := ⟨fuel - 2, by omega⟩
    have hend := endsExpr_separator (others ++ closing :: rest)
    have hread := readExpr_of_derives hlit he _ (fuel + 1) (hend.stops _) (by omega)
    have hrest := readArguments_of_derives hlit hmore f (positional ++ [e]) [] rest fuel (.inl rfl)
      (by omega)
    rw [List.append_assoc, List.cons_append,
      readArguments_positional _ f positional (he.startsPositional hlit hend) hread,
      readSeparator_separator, hrest, List.append_assoc]
    rfl
  | @DerivesArguments.lastKeyword _ key _ _ _ he, f, positional, keywords, rest, fuel, _,
      hfuel => by
    rw [List.length_cons, List.length_cons] at hfuel
    obtain ⟨fuel, rfl⟩ : ∃ n, fuel = n + 2 := ⟨fuel - 2, by omega⟩
    have hend := endsExpr_closing rest
    have hread := readExpr_of_derives hlit he _ (fuel + 1) (hend.stops _) (by omega)
    rw [List.cons_append, List.cons_append, readArguments_keyword _ f positional keywords key hread,
      readSeparator_closing, List.append_nil]
  | @DerivesArguments.keyword _ key e _ _ others _ he hmore, f, positional, keywords, rest, fuel,
      _, hfuel => by
    rw [List.length_cons, List.length_cons, List.length_append, List.length_cons] at hfuel
    obtain ⟨fuel, rfl⟩ : ∃ n, fuel = n + 2 := ⟨fuel - 2, by omega⟩
    have hend := endsExpr_separator (others ++ closing :: rest)
    have hread := readExpr_of_derives hlit he _ (fuel + 1) (hend.stops _) (by omega)
    have hrest := readArguments_of_derives hlit hmore f positional
      (keywords ++ [(String.ofList key, e)]) rest fuel (.inr rfl) (by omega)
    rw [List.cons_append, List.cons_append, List.append_assoc, List.cons_append,
      readArguments_keyword _ f positional keywords key hread, readSeparator_separator, hrest,
      List.append_assoc, List.append_nil]
    rfl

end

/-- The reader takes a derived list of tokens for the expression it derives. -/
theorem ofTokens_of_derives (hlit : ∀ t v, lit t v → Denotes t v) {e : Expr} {tokens : List Token}
    (h : Derives lit e tokens) : ofTokens tokens = .ok e := by
  have hread := readExpr_of_derives hlit h [] (enoughFuel tokens) (endsExpr_nil.stops e)
    (by unfold enoughFuel; omega)
  rw [List.append_nil] at hread
  rw [ofTokens, hread]

/-! ## The tokens of a writing -/

mutual

/-- No two words, numbers or strings touch in the writing of an expression. -/
theorem Derives.separated {e : Expr} {tokens : List Token} :
    Derives lit e tokens → Separated tokens
  | .literal _ => .single _
  | .name _ => .single _
  | .call _ hargs =>
    .cons (.inr isMark_opening)
      ((hargs.separated.append_mark isMark_closing .nil).mark_cons isMark_opening)

/-- No two words, numbers or strings touch in the writing of arguments. -/
theorem DerivesArguments.separated {positional : List Expr} {keywords : List (String × Expr)}
    {tokens : List Token} :
    DerivesArguments lit positional keywords tokens → Separated tokens
  | .nil => .nil
  | .lastPositional he => he.separated
  | .positional he hmore => he.separated.append_mark isMark_separator hmore.separated
  | .lastKeyword _ he => .cons (.inr isMark_binding) (he.separated.mark_cons isMark_binding)
  | .keyword _ he hmore =>
    .cons (.inr isMark_binding)
      ((he.separated.append_mark isMark_separator hmore.separated).mark_cons isMark_binding)

end

/-- A property of tokens that marks, identifiers and literal tokens have. -/
structure Covers (lit : Token → Value → Prop) (p : Token → Prop) : Prop where
  mark : ∀ t, IsMark t → p t
  identifier : ∀ text, IsIdentifier text → p (ofIdentifier text)
  literal : ∀ t v, lit t v → p t

mutual

/-- What holds of marks, identifiers and literals holds of every token of a writing. -/
theorem Derives.forall_mem {p : Token → Prop} (hp : Covers lit p) {e : Expr}
    {tokens : List Token} : Derives lit e tokens → ∀ t ∈ tokens, p t
  | .literal hl => by
    simpa using hp.literal _ _ hl
  | .name hn => by
    simpa using hp.identifier _ hn.identifier
  | .call hf hargs => by
    have hmore := hargs.forall_mem hp
    simp only [List.forall_mem_cons, List.forall_mem_append]
    exact ⟨hp.identifier _ hf.identifier, hp.mark _ isMark_opening, hmore,
      hp.mark _ isMark_closing, by simp⟩

/-- What holds of marks, identifiers and literals holds of every token of arguments. -/
theorem DerivesArguments.forall_mem {p : Token → Prop} (hp : Covers lit p)
    {positional : List Expr} {keywords : List (String × Expr)} {tokens : List Token} :
    DerivesArguments lit positional keywords tokens → ∀ t ∈ tokens, p t
  | .nil => by simp
  | .lastPositional he => he.forall_mem hp
  | .positional he hmore => by
    have hfirst := he.forall_mem hp
    have hrest := hmore.forall_mem hp
    simp only [List.forall_mem_cons, List.forall_mem_append]
    exact ⟨hfirst, hp.mark _ isMark_separator, hrest⟩
  | .lastKeyword hkey he => by
    have hfirst := he.forall_mem hp
    simp only [List.forall_mem_cons]
    exact ⟨hp.identifier _ hkey, hp.mark _ isMark_binding, hfirst⟩
  | .keyword hkey he hmore => by
    have hfirst := he.forall_mem hp
    have hrest := hmore.forall_mem hp
    simp only [List.forall_mem_cons, List.forall_mem_append]
    exact ⟨hp.identifier _ hkey, hp.mark _ isMark_binding, hfirst, hp.mark _ isMark_separator,
      hrest⟩

end

end Expr

end LiveDoc
