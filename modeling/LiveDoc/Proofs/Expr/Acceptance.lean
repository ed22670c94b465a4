import LiveDoc.Proofs.Expr.Lexeme

/-!
# What is accepted as an expression

Reading accepts what the grammar derives, and nothing else.

* **steps** — what each of the three readers can have done when it returns something
  (`readExpr_cases`, `readArguments_cases`, `readSeparator_cases`);
* **run** — so the tokens in front of those that a reader leaves are derived from what it returns,
  by induction on the fuel (`sound`);
* `ofTokens_eq_ok_iff` — together with the grammar's completeness: genuine tokens are taken for an
  expression exactly when they are derived from it.
-/

namespace LiveDoc.Expr

open Token

/-! ## Literals -/

/-- The token is a literal and stands for the value. An integer has 64 bits, and a string stands for
what its escapes say. -/
inductive IsLiteral : Token → Value → Prop where
  | spelled {t : Token} {v : Value} : Spelled t v → IsLiteral t v
  | string {text s : List Char} : Literal.string text = .ok s →
      IsLiteral ⟨.string, text⟩ (.string (String.ofList s))
  | float (text : List Char) : IsLiteral ⟨.float, text⟩ (.float (Literal.float text))

theorem IsLiteral.denotes {t : Token} {v : Value} (h : IsLiteral t v) : Denotes t v := by
  cases h with
  | spelled hs => exact hs.denotes
  | string hs => exact .string (by rw [stringLiteral, hs])
  | float text => exact .float text

theorem spelled_of_word? {text : List Char} {v : Value} (h : Literal.word? text = some v) :
    Spelled (ofIdentifier text) v := by
  unfold Literal.word? at h
  split at h
  · next hw =>
    cases h
    rw [Bool.or_eq_true, decide_eq_true_eq, decide_eq_true_eq] at hw
    rcases hw with rfl | rfl <;> exact .true (by simp)
  split at h
  · next hw =>
    cases h
    rw [Bool.or_eq_true, decide_eq_true_eq, decide_eq_true_eq] at hw
    rcases hw with rfl | rfl <;> exact .false (by simp)
  split at h
  · next hw =>
    cases h
    rw [Bool.or_eq_true, decide_eq_true_eq, decide_eq_true_eq] at hw
    rcases hw with rfl | rfl <;> exact .none (by simp)
  · cases h

/-- An integer token that has a value is a numeral of it: the value fits into 64 bits. -/
theorem isNumeral_of_integer {sign ds : List Char} {n : Int64} (hsign : IsSign sign)
    (hds : IsDigits ds) (h : Literal.integer (sign ++ ds) = .ok n) :
    Literal.IsNumeral n (sign ++ ds) := by
  have hpow : Nat.pow 2 63 = 9223372036854775808 := rfl
  rcases hsign with rfl | rfl
  · rw [List.nil_append] at h ⊢
    unfold Literal.integer at h
    split at h
    · have hminus := hds.2 '-' (by simp)
      simp at hminus
    · dsimp only at h
      split at h
      · next hbound =>
        cases h
        refine .plain hds.1 hds.2 ?_
        rw [Int64.toInt_ofInt_of_le (by omega) (by omega)]
      · cases h
  · rw [List.singleton_append] at h ⊢
    simp only [Literal.integer] at h
    split at h
    · next hbound =>
      cases h
      refine .negative hds.1 hds.2 ?_
      rw [Int64.toInt_ofInt_of_le (by omega) (by omega)]
    · cases h

/-- What the reader gives a genuine token is what the token stands for as a literal. -/
theorem isLiteral_of_denotes {t : Token} {v : Value} (ht : Genuine t) (h : Denotes t v) :
    IsLiteral t v := by
  cases h with
  | word hw => exact .spelled (spelled_of_word? hw)
  | float text => exact .float text
  | @string text v hs =>
    unfold stringLiteral at hs
    split at hs
    · next s hread =>
      cases hs
      exact .string hread
    · cases hs
  | @integer text v hi =>
    unfold integerLiteral at hi
    split at hi
    · next n hread =>
      cases hi
      cases ht with
      | mark hm => exact absurd hm (not_isMark (by simp) text)
      | integer hsign hds => exact .spelled (.int (isNumeral_of_integer hsign hds hread))
    · cases hi

/-! ## Soundness of the readers -/

/-- The reader of arguments goes on from the arguments that it has: what it reads up to the closing
parenthesis is derived from further arguments, and the call has both. -/
def ReadsOn (f : String) (positional : List Expr) (keywords : List (String × Expr)) (e : Expr)
    (tokens rest : List Token) : Prop :=
  ∃ ts more moreKeywords, tokens = ts ++ closing :: rest ∧
    DerivesArguments IsLiteral more moreKeywords ts ∧ (keywords = [] ∨ more = []) ∧
    e = .call f (positional ++ more) (keywords ++ moreKeywords)

/-- Behind an argument stands the closing parenthesis, or a comma with what is read on. -/
def Separates (f : String) (positional : List Expr) (keywords : List (String × Expr)) (e : Expr)
    (tokens rest : List Token) : Prop :=
  (tokens = closing :: rest ∧ e = .call f positional keywords) ∨
    ∃ after, tokens = separator :: after ∧ ReadsOn f positional keywords e after rest

/-- What the three readers return with some fuel is derived from the tokens they take. -/
structure Sound (fuel : Nat) : Prop where
  expr : ∀ {tokens rest : List Token} {e : Expr}, (∀ t ∈ tokens, Genuine t) →
    readExpr fuel tokens = .ok (e, rest) → ∃ ts, tokens = ts ++ rest ∧ Derives IsLiteral e ts
  arguments : ∀ {f : String} {positional : List Expr} {keywords : List (String × Expr)}
    {tokens rest : List Token} {e : Expr}, (∀ t ∈ tokens, Genuine t) →
    readArguments fuel f positional keywords tokens = .ok (e, rest) →
    ReadsOn f positional keywords e tokens rest
  separator : ∀ {f : String} {positional : List Expr} {keywords : List (String × Expr)}
    {tokens rest : List Token} {e : Expr}, (∀ t ∈ tokens, Genuine t) →
    readSeparator fuel f positional keywords tokens = .ok (e, rest) →
    Separates f positional keywords e tokens rest

/-- A genuine token of a mark's kind is that mark. -/
theorem eq_mark {t m : Token} (ht : Genuine t) (hm : IsMark m) (hk : t.kind = m.kind) : t = m := by
  have hmark : IsMark t := by
    obtain ⟨kind, text⟩ := m
    obtain rfl : t.kind = kind := hk
    cases ht with
    | mark ht => exact ht
    | _ => exact absurd hm (not_isMark (by simp [ofIdentifier]) text)
  have hall : ∀ t ∈ [opening, closing, separator, binding],
      ∀ m ∈ [opening, closing, separator, binding], t.kind = m.kind → t = m := by decide
  exact hall t hmark m hm hk

/-- A genuine token of an identifier's kind is one. -/
theorem isIdentifier_of_kind {t : Token} (ht : Genuine t) (hk : t.kind = .identifier) :
    t = ofIdentifier t.text ∧ IsIdentifier t.text := by
  cases ht with
  | identifier hi => exact ⟨rfl, hi⟩
  | mark hm =>
    obtain ⟨kind, text⟩ := t
    obtain rfl : kind = .identifier := hk
    exact absurd hm (not_isMark (by simp) text)
  | _ => cases hk

/-- An expression starts with a token that denotes a literal, or with a name, behind which arguments
may be opened. -/
theorem readExpr_cases {fuel : Nat} {t : Token} {rest after : List Token} {e : Expr}
    (h : readExpr (fuel + 1) (t :: rest) = .ok (e, after)) :
    (∃ v, Denotes t v ∧ e = .literal v ∧ after = rest) ∨
      (t.kind = .identifier ∧ Literal.word? t.text = none ∧
        (e = .name (String.ofList t.text) ∧ after = rest ∨
          ∃ text more, rest = ⟨.parenOpen, text⟩ :: more ∧
            readArguments fuel (String.ofList t.text) [] [] more = .ok (e, after))) := by
  obtain ⟨kind, text⟩ := t
  cases kind with
  | identifier =>
    simp only [readExpr] at h
    split at h
    · next v hw =>
      cases h
      exact .inl ⟨v, .word hw, rfl, rfl⟩
    · next hw =>
      refine .inr ⟨rfl, hw, ?_⟩
      split at h
      · next text' more => exact .inr ⟨text', more, rfl, h⟩
      · cases h
        exact .inl ⟨rfl, rfl⟩
  | string =>
    simp only [readExpr] at h
    cases hs : stringLiteral text with
    | error fault => simp [hs, Except.map] at h
    | ok v =>
      simp only [hs, Except.map, Except.ok.injEq, Prod.mk.injEq] at h
      exact .inl ⟨v, .string hs, h.1.symm, h.2.symm⟩
  | integer =>
    simp only [readExpr] at h
    cases hi : integerLiteral text with
    | error fault => simp [hi, Except.map] at h
    | ok v =>
      simp only [hi, Except.map, Except.ok.injEq, Prod.mk.injEq] at h
      exact .inl ⟨v, .integer hi, h.1.symm, h.2.symm⟩
  | float =>
    simp only [readExpr, Except.ok.injEq, Prod.mk.injEq] at h
    exact .inl ⟨_, .float text, h.1.symm, h.2.symm⟩
  | _ => simp [readExpr] at h

/-- Arguments are closed, go on with a keyword, or go on with a positional one while there is no
keyword. -/
theorem readArguments_cases {fuel : Nat} {f : String} {positional : List Expr}
    {keywords : List (String × Expr)} {tokens rest : List Token} {e : Expr}
    (h : readArguments (fuel + 1) f positional keywords tokens = .ok (e, rest)) :
    (∃ text, tokens = ⟨.parenClose, text⟩ :: rest ∧ e = .call f positional keywords) ∨
      (∃ key text more value after,
        tokens = ⟨.identifier, key⟩ :: ⟨.equals, text⟩ :: more ∧
        readExpr fuel more = .ok (value, after) ∧
        readSeparator fuel f positional (keywords ++ [(String.ofList key, value)]) after =
          .ok (e, rest)) ∨
      (keywords = [] ∧ ∃ value after, readExpr fuel tokens = .ok (value, after) ∧
        readSeparator fuel f (positional ++ [value]) [] after = .ok (e, rest)) := by
  rw [readArguments.eq_def] at h
  split at h
  · next heq => cases heq
  · next text more heq =>
    cases heq
    cases h
    exact .inl ⟨text, rfl, rfl⟩
  · next key text more heq =>
    cases heq
    split at h
    · cases h
    · next value after hread => exact .inr (.inl ⟨key, text, more, value, after, rfl, hread, h⟩)
  · next heq _ _ =>
    cases heq
    split at h
    · next hempty =>
      have hnil := List.isEmpty_iff.mp hempty
      split at h
      · cases h
      · next value after hread =>
        rw [hnil] at h
        exact .inr (.inr ⟨hnil, value, after, hread, h⟩)
    · cases h

/-- Behind an argument stands a comma, or the closing parenthesis. -/
theorem readSeparator_cases {fuel : Nat} {f : String} {positional : List Expr}
    {keywords : List (String × Expr)} {tokens rest : List Token} {e : Expr}
    (h : readSeparator (fuel + 1) f positional keywords tokens = .ok (e, rest)) :
    (∃ text more, tokens = ⟨.comma, text⟩ :: more ∧
        readArguments fuel f positional keywords more = .ok (e, rest)) ∨
      (∃ text, tokens = ⟨.parenClose, text⟩ :: rest ∧ e = .call f positional keywords) := by
  simp only [readSeparator] at h
  split at h
  · next text more => exact .inl ⟨text, more, rfl, h⟩
  · next text more =>
    cases h
    exact .inr ⟨text, rfl, rfl⟩
  · cases h

/-! ## One more argument -/

/-- A positional argument can be put in front of what was read behind it. -/
theorem Separates.positional {f : String} {positional : List Expr} {value e : Expr}
    {ts after rest : List Token} (hvalue : Derives IsLiteral value ts)
    (h : Separates f (positional ++ [value]) [] e after rest) :
    ReadsOn f positional [] e (ts ++ after) rest := by
  rcases h with ⟨rfl, rfl⟩ | ⟨_, rfl, us, more, moreKeywords, rfl, hmore, -, rfl⟩
  · exact ⟨ts, [value], [], rfl, .lastPositional hvalue, .inl rfl, by simp⟩
  · refine ⟨ts ++ separator :: us, value :: more, moreKeywords, by simp, .positional hvalue hmore,
      .inl rfl, by simp⟩

/-- A keyword argument can be put in front of what was read behind it: no positional one follows. -/
theorem Separates.keyword {f : String} {positional : List Expr} {keywords : List (String × Expr)}
    {key : List Char} {value e : Expr} {ts after rest : List Token} (hkey : IsIdentifier key)
    (hvalue : Derives IsLiteral value ts)
    (h : Separates f positional (keywords ++ [(String.ofList key, value)]) e after rest) :
    ReadsOn f positional keywords e (ofIdentifier key :: binding :: (ts ++ after)) rest := by
  rcases h with ⟨rfl, rfl⟩ | ⟨_, rfl, us, more, moreKeywords, rfl, hmore, hkinds, rfl⟩
  · exact ⟨ofIdentifier key :: binding :: ts, [], [(String.ofList key, value)], rfl,
      .lastKeyword hkey hvalue, .inr rfl, by simp⟩
  · obtain rfl : more = [] := by simpa using hkinds
    exact ⟨ofIdentifier key :: binding :: (ts ++ separator :: us), [],
      (String.ofList key, value) :: moreKeywords, by simp, .keyword hkey hvalue hmore, .inr rfl,
      by simp⟩

/-! ## All steps -/

theorem sound : ∀ fuel, Sound fuel := by
  intro fuel
  -- the readers call each other with less fuel, so one induction carries all three
  induction fuel with
  | zero =>
    refine ⟨?_, ?_, ?_⟩
    · intro tokens rest e _ h
      simp [readExpr] at h
    · intro f positional keywords tokens rest e _ h
      simp [readArguments] at h
    · intro f positional keywords tokens rest e _ h
      simp [readSeparator] at h
  | succ fuel ih =>
    refine ⟨?_, ?_, ?_⟩
    · intro tokens rest e hgenuine h
      cases tokens with
      | nil => simp [readExpr] at h
      | cons t more =>
        obtain ⟨ht, hmore⟩ := List.forall_mem_cons.mp hgenuine
        rcases readExpr_cases h with ⟨v, hv, rfl, rfl⟩ | ⟨hk, hw, hname | ⟨text, args, rfl, hargs⟩⟩
        · exact ⟨[t], rfl, .literal (isLiteral_of_denotes ht hv)⟩
        · obtain ⟨rfl, rfl⟩ := hname
          obtain ⟨heq, hidentifier⟩ := isIdentifier_of_kind ht hk
          refine ⟨[t], rfl, ?_⟩
          rw [heq]
          exact .name ⟨hidentifier, word?_eq_none_iff.mp hw⟩
        · obtain ⟨heq, hidentifier⟩ := isIdentifier_of_kind ht hk
          obtain ⟨hopen, hargsGenuine⟩ := List.forall_mem_cons.mp hmore
          obtain ⟨ts, more, moreKeywords, rfl, hderives, -, rfl⟩ := ih.arguments hargsGenuine hargs
          refine ⟨t :: opening :: (ts ++ [closing]), ?_, ?_⟩
          · rw [eq_mark hopen isMark_opening rfl]
            simp
          · rw [heq]
            exact .call ⟨hidentifier, word?_eq_none_iff.mp hw⟩ hderives
    · intro f positional keywords tokens rest e hgenuine h
      rcases readArguments_cases h with ⟨text, rfl, rfl⟩ |
        ⟨key, text, more, value, after, rfl, hvalue, hrest⟩ | ⟨rfl, value, after, hvalue, hrest⟩
      · obtain ⟨hclose, -⟩ := List.forall_mem_cons.mp hgenuine
        refine ⟨[], [], [], ?_, .nil, .inr rfl, by simp⟩
        rw [eq_mark hclose isMark_closing rfl]
        rfl
      · obtain ⟨hkey, hmore⟩ := List.forall_mem_cons.mp hgenuine
        obtain ⟨hequals, hmore⟩ := List.forall_mem_cons.mp hmore
        obtain ⟨ts, rfl, hderives⟩ := ih.expr hmore hvalue
        have hafter := (List.forall_mem_append.mp hmore).2
        have hkeyword :=
          (ih.separator hafter hrest).keyword (isIdentifier_of_kind hkey rfl).2 hderives
        rw [eq_mark hequals isMark_binding rfl]
        exact hkeyword
      · obtain ⟨ts, rfl, hderives⟩ := ih.expr hgenuine hvalue
        have hafter := (List.forall_mem_append.mp hgenuine).2
        exact (ih.separator hafter hrest).positional hderives
    · intro f positional keywords tokens rest e hgenuine h
      rcases readSeparator_cases h with ⟨text, more, rfl, hmore⟩ | ⟨text, rfl, rfl⟩
      · obtain ⟨hcomma, hgenuine⟩ := List.forall_mem_cons.mp hgenuine
        rw [eq_mark hcomma isMark_separator rfl]
        exact .inr ⟨more, rfl, ih.arguments hgenuine hmore⟩
      · obtain ⟨hclose, -⟩ := List.forall_mem_cons.mp hgenuine
        rw [eq_mark hclose isMark_closing rfl]
        exact .inl ⟨rfl, rfl⟩

/-- Genuine tokens are taken for an expression exactly when they are derived from it. -/
theorem ofTokens_eq_ok_iff {tokens : List Token} (hgenuine : ∀ t ∈ tokens, Genuine t) {e : Expr} :
    ofTokens tokens = .ok e ↔ Derives IsLiteral e tokens := by
  refine ⟨?_, ofTokens_of_derives fun _ _ => IsLiteral.denotes⟩
  intro h
  unfold ofTokens at h
  split at h
  · cases h
  · next hread =>
    cases h
    obtain ⟨ts, rfl, hderives⟩ := (sound _).expr hgenuine hread
    rwa [List.append_nil]
  · cases h

end LiveDoc.Expr
