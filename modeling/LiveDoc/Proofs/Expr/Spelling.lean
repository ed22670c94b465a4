import LiveDoc.Proofs.Expr.Literal
import LiveDoc.Proofs.Text.MaximalRun

/-!
# Writing expressions down

A source is a writing of an expression when its tokens, with blanks around them at will, are
derived from the expression and its literals are spelled.

* `Token.readAll_of_spaced` — the longest-match reader finds exactly the tokens that were spaced
  out, because one of any two neighbours is a mark;
* `Expr.exists_writes` — every plain expression can be written;
* `Expr.parse_writes` — and reading any of its writings gives the expression back.
-/

namespace LiveDoc

namespace Token

/-! ## One token -/

/-- The text ends a word or a number in front of it: it is empty, or starts with a blank or a
mark. -/
def Cuts (after : List Char) : Prop :=
  ∀ c ∈ after.head?, isSpace c = true ∨ c ∈ ['(', ')', ',', '=']

/-- The reader finds the token at the start of its text, whatever follows a mark, and also when a
blank or a mark follows another token. -/
def Reads (t : Token) : Prop :=
  ∀ after, IsMark t ∨ Cuts after →
    ∃ c rest, t.text = c :: rest ∧ isSpace c = false ∧ read c (rest ++ after) = .ok (t, after)

/-- Blanks and marks continue neither a word nor a number. -/
theorem Cuts.head {after : List Char} (h : Cuts after) :
    ∀ c ∈ after.head?, isIdentifierPart c = false ∧ c.isDigit = false ∧ c ≠ '.' ∧ c ≠ 'e' ∧
      c ≠ 'E' := by
  intro c hc
  have hcut := h c hc
  simp only [isSpace, Bool.or_eq_true, decide_eq_true_eq, List.mem_cons, List.not_mem_nil,
    or_false] at hcut
  rcases hcut with ((((rfl | rfl) | rfl) | rfl) | rfl) | rfl | rfl | rfl | rfl <;> decide

theorem reads_mark {t : Token} (ht : IsMark t) : Reads t := by
  intro after _
  simp only [IsMark, List.mem_cons, List.not_mem_nil, or_false] at ht
  rcases ht with rfl | rfl | rfl | rfl <;> exact ⟨_, [], rfl, by decide, by rfl⟩

theorem not_isMark {kind : Kind} (h : kind ∈ [.identifier, .string, .integer, .float])
    (text : List Char) : ¬ IsMark ⟨kind, text⟩ := by
  intro hmark
  simp only [IsMark, List.mem_cons, List.not_mem_nil, or_false] at hmark
  rcases hmark with hm | hm | hm | hm
  all_goals
    obtain ⟨rfl, -⟩ := Token.mk.inj hm
    simp at h

/-- What starts a word is neither a blank nor the start of any other token. -/
theorem start_of_isIdentifierStart {c : Char} (h : isIdentifierStart c = true) :
    isSpace c = false ∧ c ≠ '(' ∧ c ≠ ')' ∧ c ≠ ',' ∧ c ≠ '=' := by
  refine ⟨?_, ?_, ?_, ?_, ?_⟩
  · cases hspace : isSpace c with
    | false => rfl
    | true =>
      simp only [isSpace, Bool.or_eq_true, decide_eq_true_eq] at hspace
      rcases hspace with (((rfl | rfl) | rfl) | rfl) | rfl <;> exact absurd h (by decide)
  all_goals
    rintro rfl
    exact absurd h (by decide)

/-- A digit is neither a blank nor the start of a token that is no number. -/
theorem start_of_isDigit {c : Char} (h : c.isDigit = true) :
    isSpace c = false ∧ c ≠ '(' ∧ c ≠ ')' ∧ c ≠ ',' ∧ c ≠ '=' ∧ isIdentifierStart c = false ∧
      c ≠ '"' ∧ c ≠ '\'' ∧ c ≠ '-' := by
  refine ⟨?_, ?_, ?_, ?_, ?_, ?_, ?_, ?_, ?_⟩
  · cases hspace : isSpace c with
    | false => rfl
    | true =>
      simp only [isSpace, Bool.or_eq_true, decide_eq_true_eq] at hspace
      rcases hspace with (((rfl | rfl) | rfl) | rfl) | rfl <;> exact absurd h (by decide)
  case refine_6 =>
    have hscore : c ≠ '_' := by
      rintro rfl
      exact absurd h (by decide)
    rw [isIdentifierStart, Text.isAlpha_of_isDigit h, Bool.false_or]
    exact decide_eq_false hscore
  all_goals
    rintro rfl
    exact absurd h (by decide)

theorem reads_identifier {text : List Char} (h : IsIdentifier text) :
    Reads (ofIdentifier text) := by
  rintro after (hmark | hcuts)
  · exact absurd hmark (not_isMark (by simp) text)
  · obtain ⟨c, rest, rfl, hc, hrest⟩ := h
    obtain ⟨hspace, hopen, hclose, hcomma, hequals⟩ := start_of_isIdentifierStart hc
    refine ⟨c, rest, rfl, hspace, ?_⟩
    have hspan := Text.span_append hrest fun d hd => (hcuts.head d hd).1
    simp only [read, hopen, hclose, hcomma, hequals, hc, hspan, if_false, if_true]
    rfl

theorem isIdentifier_of_mem_literalWords {word : String} (h : word ∈ literalWords) :
    IsIdentifier word.toList := by
  simp only [literalWords, List.mem_cons, List.not_mem_nil, or_false] at h
  rcases h with rfl | rfl | rfl | rfl | rfl | rfl
  all_goals decide

open Literal in
theorem quotedBody_escaped {q : Char} (hq : IsQuote q) (s after : List Char) :
    quotedBody q (escaped q s ++ q :: after) = .ok (escaped q s ++ [q], after) := by
  have hbackslash : '\\' ≠ q := by rcases hq with rfl | rfl <;> decide
  have hfeed : q ≠ '\n' := by rcases hq with rfl | rfl <;> decide
  induction s with
  | nil =>
    rw [escaped, List.nil_append, quotedBody.eq_def]
    simp
  | cons c rest ih =>
    by_cases hc : c = q ∨ c = '\\'
    · have hnoFeed : c ≠ '\n' := by
        rcases hc with rfl | rfl
        · exact hfeed
        · decide
      rw [escaped_cons_special hc]
      simp [quotedBody, hbackslash, hnoFeed, ih]
    · rw [not_or] at hc
      rw [escaped_cons_plain hc.1 hc.2, List.cons_append, quotedBody.eq_def]
      simp [hc, ih]

open Literal in
theorem reads_string {q : Char} (hq : IsQuote q) (s : List Char) :
    Reads ⟨.string, quoted q s⟩ := by
  intro after _
  refine ⟨q, escaped q s ++ [q], rfl, ?_, ?_⟩
  · rcases hq with rfl | rfl <;> decide
  · have hbody := quotedBody_escaped hq s after
    rw [List.append_assoc, List.singleton_append]
    rcases hq with rfl | rfl <;> simp [read, isIdentifierStart, hbody, quoted]

/-- Nothing that continues a number follows one. -/
theorem numberTail_of_cuts {after : List Char} (h : Cuts after) :
    numberTail after = (.integer, [], after) := by
  cases after with
  | nil => rfl
  | cons c rest =>
    obtain ⟨-, -, hpoint, hlower, hupper⟩ := h.head c rfl
    have hfraction : fraction? (c :: rest) = none := by
      simp [fraction?, hpoint]
    have hexponent : exponent? (c :: rest) = none := by
      simp [exponent?, hlower, hupper]
    rw [numberTail, hfraction, hexponent]

theorem number?_digits {ds after : List Char} (hne : ds ≠ [])
    (hdigits : ∀ d ∈ ds, d.isDigit = true) (h : Cuts after) (sign : List Char) :
    number? sign (ds ++ after) = some (⟨.integer, sign ++ ds⟩, after) := by
  have hspan := Text.span_append hdigits fun c hc => (h.head c hc).2.1
  rw [number?, digits, hspan]
  simp [hne, numberTail_of_cuts h]

theorem reads_numeral {n : Int64} {text : List Char} (h : Literal.IsNumeral n text) :
    Reads ⟨.integer, text⟩ := by
  rintro after (hmark | hcuts)
  · exact absurd hmark (not_isMark (by simp) text)
  · cases h with
    | @plain ds hne hdigits hvalue =>
      obtain ⟨c, rest, rfl⟩ := List.exists_cons_of_ne_nil hne
      have hnumber := number?_digits hne hdigits hcuts []
      obtain ⟨hspace, hopen, hclose, hcomma, hequals, hword, hdouble, hsingle, hminus⟩ :=
        start_of_isDigit (hdigits c List.mem_cons_self)
      refine ⟨c, rest, rfl, hspace, ?_⟩
      rw [List.cons_append] at hnumber
      simp [read, hopen, hclose, hcomma, hequals, hword, hdouble, hsingle, hminus, hnumber]
    | @negative ds hne hdigits hvalue =>
      have hnumber := number?_digits hne hdigits hcuts ['-']
      refine ⟨'-', ds, rfl, by decide, ?_⟩
      simp [read, isIdentifierStart, hnumber]

theorem reads_of_spelled {t : Token} {v : Value} (h : Spelled t v) : Reads t := by
  cases h with
  | none ht =>
    have hsub : ["none", "None"] ⊆ literalWords := by decide
    exact reads_identifier (isIdentifier_of_mem_literalWords (hsub ht))
  | true ht =>
    have hsub : ["true", "True"] ⊆ literalWords := by decide
    exact reads_identifier (isIdentifier_of_mem_literalWords (hsub ht))
  | false ht =>
    have hsub : ["false", "False"] ⊆ literalWords := by decide
    exact reads_identifier (isIdentifier_of_mem_literalWords (hsub ht))
  | int hn => exact reads_numeral hn
  | string s hq => exact reads_string hq s.toList

/-! ## All tokens -/

/-- The text consists of the tokens in order, with blanks before, between and behind them at
will. -/
inductive Spaced : List Token → List Char → Prop where
  | nil {blanks : List Char} : (∀ c ∈ blanks, isSpace c = true) → Spaced [] blanks
  | cons {blanks : List Char} {t : Token} {ts : List Token} {rest : List Char} :
      (∀ c ∈ blanks, isSpace c = true) → Spaced ts rest →
      Spaced (t :: ts) (blanks ++ (t.text ++ rest))

/-- Tokens, each behind blanks of its own, and blanks at the end. -/
theorem spaced_pieces {pieces : List (List Char × Token)} {blanks : List Char}
    (h : ∀ piece ∈ pieces, ∀ c ∈ piece.1, isSpace c = true)
    (hblanks : ∀ c ∈ blanks, isSpace c = true) :
    Spaced (pieces.map (·.2))
      (pieces.flatMap (fun piece => piece.1 ++ piece.2.text) ++ blanks) := by
  induction pieces with
  | nil => exact .nil hblanks
  | cons piece rest ih =>
    have hrest := ih fun p hp => h p (List.mem_cons_of_mem _ hp)
    rw [List.flatMap_cons, List.append_assoc, List.append_assoc]
    exact .cons (h piece List.mem_cons_self) hrest

theorem readAll_append_blanks {blanks : List Char} (h : ∀ c ∈ blanks, isSpace c = true)
    (fuel place : Nat) (rest : List Char) :
    readAll (blanks.length + fuel) place (blanks ++ rest) =
      readAll fuel (place + blanks.length) rest := by
  induction blanks generalizing place with
  | nil => simp
  | cons c more ih =>
    have hc : isSpace c = true := h c List.mem_cons_self
    have hmore := ih (fun d hd => h d (List.mem_cons_of_mem c hd)) (place + 1)
    rw [List.length_cons, show more.length + 1 + fuel = more.length + fuel + 1 by omega,
      List.cons_append, readAll, if_pos hc, hmore]
    congr 1
    omega

theorem cuts_blanks {blanks : List Char} (h : ∀ c ∈ blanks, isSpace c = true) : Cuts blanks := by
  intro c hc
  exact .inl (h c (List.mem_of_mem_head? hc))

theorem cuts_mark {blanks rest : List Char} {u : Token} (h : ∀ c ∈ blanks, isSpace c = true)
    (hu : IsMark u) : Cuts (blanks ++ (u.text ++ rest)) := by
  intro c hc
  cases blanks with
  | nil =>
    simp only [IsMark, List.mem_cons, List.not_mem_nil, or_false] at hu
    rcases hu with rfl | rfl | rfl | rfl
    all_goals
      cases hc
      exact .inr (by decide)
  | cons d more =>
    cases hc
    exact .inl (h c List.mem_cons_self)

/-- What follows a token other than a mark ends it. -/
theorem Spaced.cuts {t : Token} {ts : List Token} {rest : List Char} (h : Spaced ts rest)
    (hsep : Separated (t :: ts)) : IsMark t ∨ Cuts rest := by
  cases hsep with
  | single t =>
    cases h with
    | nil hblanks => exact .inr (cuts_blanks hblanks)
  | cons hmarks hrest =>
    rcases hmarks with ht | hu
    · exact .inl ht
    · cases h with
      | cons hblanks hmore => exact .inr (cuts_mark hblanks hu)

/-- The tokens that were spaced out are read again. -/
theorem readAll_of_spaced {ts : List Token} {source : List Char} (h : Spaced ts source)
    (hsep : Separated ts) (hreads : ∀ t ∈ ts, Reads t) (fuel place : Nat)
    (hfuel : source.length ≤ fuel) : readAll fuel place source = .ok ts := by
  induction h generalizing fuel place with
  | @nil blanks hblanks =>
    obtain ⟨fuel, rfl⟩ : ∃ n, fuel = blanks.length + n := ⟨fuel - blanks.length, by omega⟩
    have hread := readAll_append_blanks hblanks fuel place []
    rw [List.append_nil] at hread
    rw [hread]
    cases fuel <;> rfl
  | @cons blanks t ts rest hblanks hspaced ih =>
    obtain ⟨c, more, htext, hspace, hread⟩ :=
      hreads t List.mem_cons_self rest (hspaced.cuts hsep)
    simp only [List.length_append, htext, List.length_cons] at hfuel
    obtain ⟨fuel, rfl⟩ : ∃ n, fuel = blanks.length + (n + 1) :=
      ⟨fuel - blanks.length - 1, by omega⟩
    have hmore := ih hsep.tail (fun u hu => hreads u (List.mem_cons_of_mem t hu)) fuel
      (place + blanks.length + Text.byteLength t.text) (by omega)
    rw [readAll_append_blanks hblanks, htext, List.cons_append, readAll, hspace, hread]
    simp [hmore]

end Token

/-! ## Expressions -/

namespace Expr

open Token

/-- The text is a writing of the expression. -/
def Writes (e : Expr) (source : String) : Prop :=
  ∃ ts, Derives Spelled e ts ∧ Spaced ts source.toList

theorem covers_reads : Covers Spelled Reads where
  mark _ := reads_mark
  identifier _ := reads_identifier
  literal _ _ := reads_of_spelled

theorem parse_of_writes {e : Expr} {source : String} (h : Writes e source) :
    parse source = .ok e := by
  obtain ⟨ts, hderives, hspaced⟩ := h
  have htokens : tokens source.toList = .ok ts :=
    readAll_of_spaced hspaced hderives.separated (hderives.forall_mem covers_reads) _ 0
      (Nat.le_refl _)
  have hread : ofTokens ts = .ok e :=
    ofTokens_of_derives (fun _ _ => Spelled.denotes) hderives
  simp only [parse, read, htokens, hread]

/-- A literal value of the expression language that has a spelling. -/
inductive IsPlainValue : Value → Prop where
  | none : IsPlainValue .none
  | bool (b : Bool) : IsPlainValue (.bool b)
  | int (n : Int64) : IsPlainValue (.int n)
  | string (s : String) : IsPlainValue (.string s)

/-- The expressions that can be written down: literals, names, and calls of names with positional
and keyword arguments, nested at will. -/
inductive Plain : Expr → Prop where
  | literal {v : Value} : IsPlainValue v → Plain (.literal v)
  | name {n : String} : IsName n.toList → Plain (.name n)
  | call {f : String} {positional : List Expr} {keywords : List (String × Expr)} :
      IsName f.toList → (∀ e ∈ positional, Plain e) →
      (∀ k ∈ keywords, IsIdentifier k.1.toList) → (∀ k ∈ keywords, Plain k.2) →
      Plain (.call f positional keywords)

theorem exists_spelled {v : Value} (h : IsPlainValue v) : ∃ t, Spelled t v := by
  cases h with
  | none => exact ⟨_, .none (List.mem_cons_self)⟩
  | bool b =>
    cases b with
    | true => exact ⟨_, .true (List.mem_cons_self)⟩
    | false => exact ⟨_, .false (List.mem_cons_self)⟩
  | int n =>
    obtain ⟨text, htext⟩ := Literal.exists_isNumeral n
    exact ⟨_, .int htext⟩
  | string s => exact ⟨_, .string s (.inl rfl)⟩

theorem exists_derives_keywords {keywords : List (String × Expr)}
    (hkeys : ∀ k ∈ keywords, IsIdentifier k.1.toList)
    (h : ∀ k ∈ keywords, ∃ ts, Derives Spelled k.2 ts) :
    ∃ ts, DerivesArguments Spelled [] keywords ts := by
  induction keywords with
  | nil => exact ⟨[], .nil⟩
  | cons k rest ih =>
    obtain ⟨key, e⟩ := k
    obtain ⟨ts, hts⟩ := h _ List.mem_cons_self
    obtain ⟨us, hus⟩ := ih (fun k hk => hkeys k (List.mem_cons_of_mem _ hk))
      (fun k hk => h k (List.mem_cons_of_mem _ hk))
    have hderives := DerivesArguments.keyword (hkeys _ List.mem_cons_self) hts hus
    rw [String.ofList_toList] at hderives
    exact ⟨_, hderives⟩

theorem exists_derives_arguments {positional : List Expr} {keywords : List (String × Expr)}
    (h : ∀ e ∈ positional, ∃ ts, Derives Spelled e ts) {us : List Token}
    (hkeywords : DerivesArguments Spelled [] keywords us) :
    ∃ ts, DerivesArguments Spelled positional keywords ts := by
  induction positional with
  | nil => exact ⟨us, hkeywords⟩
  | cons e rest ih =>
    obtain ⟨ts, hts⟩ := h e List.mem_cons_self
    obtain ⟨more, hmore⟩ := ih fun e he => h e (List.mem_cons_of_mem _ he)
    exact ⟨_, .positional hts hmore⟩

theorem exists_derives {e : Expr} (h : Plain e) : ∃ ts, Derives Spelled e ts := by
  induction h with
  | literal hv =>
    obtain ⟨t, ht⟩ := exists_spelled hv
    exact ⟨[t], .literal ht⟩
  | @name n hn =>
    have hderives : Derives Spelled _ _ := .name hn
    rw [String.ofList_toList] at hderives
    exact ⟨_, hderives⟩
  | @call f positional keywords hf _ hkeys _ ihPositional ihKeywords =>
    obtain ⟨us, hus⟩ := exists_derives_keywords hkeys ihKeywords
    obtain ⟨ts, hts⟩ := exists_derives_arguments ihPositional hus
    have hderives : Derives Spelled _ _ := .call hf hts
    rw [String.ofList_toList] at hderives
    exact ⟨_, hderives⟩

/-- Every plain expression can be written, even without any blanks. -/
theorem exists_writes {e : Expr} (h : Plain e) : ∃ source, Writes e source := by
  obtain ⟨ts, hts⟩ := exists_derives h
  obtain ⟨text, htext⟩ : ∃ text, Spaced ts text := by
    have hspaced := @spaced_pieces (ts.map fun t => ([], t)) [] (by simp) (by simp)
    have htokens : (ts.map fun t => (([] : List Char), t)).map (·.2) = ts := by
      rw [List.map_map]
      exact List.map_id ts
    rw [htokens] at hspaced
    exact ⟨_, hspaced⟩
  refine ⟨String.ofList text, ts, hts, ?_⟩
  rw [String.toList_ofList]
  exact htext

/-- **Parsing undoes printing.** Every plain expression can be written, and whichever way it is
written, reading the text gives the expression. -/
theorem parse_writes {e : Expr} (h : Plain e) :
    (∃ source, Writes e source) ∧ ∀ source, Writes e source → parse source = .ok e :=
  ⟨exists_writes h, fun _ hwrites => parse_of_writes hwrites⟩

/-- A call with a positional string and a keyword that is a literal word. -/
def greeting : Expr :=
  .call "say" [.literal (.string "it's")] [("true", .literal (.int (-7)))]

/-- An escaped quote, a leading zero, blanks and a comma at the end all go. -/
theorem parse_writes_greeting :
    Plain greeting ∧ parse "say ( 'it\\'s',\ttrue=-07, )" = .ok greeting := by
  have hname : IsName "say".toList := ⟨by decide, by decide⟩
  have hkey : IsIdentifier "true".toList := isIdentifier_of_mem_literalWords (by decide)
  have hplain : Plain greeting := by
    refine .call hname ?_ ?_ ?_
    · simpa using .literal (.string _)
    · simpa using hkey
    · simpa using .literal (.int _)
  have hnumber : Derives Spelled (.literal (.int (-7))) [⟨.integer, "-07".toList⟩] :=
    .literal (.int (.negative (by decide) (List.all_eq_true.mp (by decide)) (by decide)))
  have hstring : Derives Spelled (.literal (.string "it's"))
      [⟨.string, Literal.quoted '\'' "it's".toList⟩] :=
    .literal (.string "it's" (.inr rfl))
  have hderives := Derives.call hname (.positional hstring (.keyword hkey hnumber .nil))
  have hspaced := @spaced_pieces
    [([], ofIdentifier "say".toList), ([' '], opening),
      ([' '], ⟨.string, Literal.quoted '\'' "it's".toList⟩), ([], separator),
      (['\t'], ofIdentifier "true".toList), ([], binding), ([], ⟨.integer, "-07".toList⟩),
      ([], separator), ([' '], closing)] [] (by simp [isSpace]) (by simp)
  exact ⟨hplain, (parse_writes hplain).2 _ ⟨_, hderives, hspaced⟩⟩

end Expr

end LiveDoc
