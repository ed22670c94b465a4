import LiveDoc.Proofs.Expr.Grammar

/-!
# Spellings of literals

`Spelled` says how the literal values are written: the words, decimal numbers, and strings in
either kind of quotes with a backslash in front of backslashes and of the quote itself.

* `string_quoted` — a quoted string stands for the string. Where escapes are read, the reader has
  first rewritten the text for double quotes, so two rewritings must cancel: `requote_escaped`
  and `unescapeFrom_escaped`;
* `integer_of_isNumeral` — a numeral stands for its number;
* `Spelled.denotes` — so every spelling is read as its value.
-/

namespace LiveDoc

namespace Literal

/-! ## Strings -/

/-- The inside of a string between `q` quotes: backslashes and `q` get a backslash. -/
def escaped (q : Char) : List Char → List Char
  | [] => []
  | c :: rest => if c = q ∨ c = '\\' then '\\' :: c :: escaped q rest else c :: escaped q rest

/-- A string between `q` quotes. -/
def quoted (q : Char) (s : List Char) : List Char := q :: (escaped q s ++ [q])

/-- The quotes that a string can be written in. -/
def IsQuote (q : Char) : Prop := q = '"' ∨ q = '\''

theorem escaped_cons_special {q c : Char} (h : c = q ∨ c = '\\') (rest : List Char) :
    escaped q (c :: rest) = '\\' :: c :: escaped q rest := by
  rw [escaped, if_pos h]

theorem escaped_cons_plain {q c : Char} (hq : c ≠ q) (hb : c ≠ '\\') (rest : List Char) :
    escaped q (c :: rest) = c :: escaped q rest := by
  rw [escaped, if_neg (by simp [hq, hb])]

theorem inside_quoted (q : Char) (s : List Char) : inside (quoted q s) = escaped q s := by
  simp [inside, quoted]

/-- Without a backslash nothing was escaped. -/
theorem escaped_eq_self {q : Char} {s : List Char} (h : '\\' ∉ escaped q s) : escaped q s = s := by
  induction s with
  | nil => rfl
  | cons c rest ih =>
    by_cases hc : c = q ∨ c = '\\'
    · rw [escaped_cons_special hc] at h
      simp at h
    · rw [not_or] at hc
      rw [escaped_cons_plain hc.1 hc.2] at h ⊢
      rw [ih fun hmem => h (List.mem_cons_of_mem c hmem)]

theorem requote_plain {c : Char} (hd : c ≠ '"') (hb : c ≠ '\\') (rest : List Char) :
    requote (c :: rest) = c :: requote rest := by
  rw [requote]
  · rw [if_neg hd]
  · rintro d more rfl _
    exact hb rfl

/-- Requoting turns the inside of a string in either quotes into the inside of the same string in
double quotes. -/
theorem requote_escaped {q : Char} (hq : IsQuote q) (s : List Char) :
    requote (escaped q s) = escaped '"' s := by
  induction s with
  | nil => rfl
  | cons c rest ih =>
    by_cases hb : c = '\\'
    · rw [escaped_cons_special (.inr hb), escaped_cons_special (.inr hb), requote, ih]
      simp [hb]
    · rcases hq with rfl | rfl
      · by_cases hd : c = '"'
        · rw [escaped_cons_special (.inl hd), requote, ih]
          simp [hd]
        · rw [escaped_cons_plain hd hb, requote_plain hd hb, ih]
      · by_cases hs : c = '\''
        · subst hs
          rw [escaped_cons_special (.inl rfl), requote, ih, escaped_cons_plain (by decide) hb]
          rfl
        · rw [escaped_cons_plain hs hb]
          by_cases hd : c = '"'
          · subst hd
            rw [escaped_cons_special (.inl rfl), requote, ih]
            · rfl
            · simp
          · rw [escaped_cons_plain hd hb, requote_plain hd hb, ih]

/-- Reading the escapes of a string in double quotes gives the string. -/
theorem unescapeFrom_escaped (whole s : List Char) (place fuel : Nat)
    (hfuel : (escaped '"' s).length < fuel) :
    unescapeFrom whole fuel place (escaped '"' s ++ ['"']) = .ok s := by
  induction s generalizing place fuel with
  | nil =>
    obtain ⟨fuel, rfl⟩ : ∃ n, fuel = n + 1 := ⟨fuel - 1, by omega⟩
    rfl
  | cons c rest ih =>
    obtain ⟨fuel, rfl⟩ : ∃ n, fuel = n + 1 := ⟨fuel - 1, by omega⟩
    by_cases hc : c = '"' ∨ c = '\\'
    · rw [escaped_cons_special hc] at hfuel ⊢
      have hrest := ih (place + 2) fuel (by simp at hfuel; omega)
      rcases hc with rfl | rfl
      · simp [unescapeFrom, simpleEscape?, hrest, Except.map]
      · simp [unescapeFrom, simpleEscape?, hrest, Except.map]
    · rw [not_or] at hc
      rw [escaped_cons_plain hc.1 hc.2] at hfuel ⊢
      have hrest := ih (place + 1) fuel (by simp at hfuel; omega)
      simp [unescapeFrom, hc, hrest, Except.map]

/-- A quoted string stands for the string. -/
theorem string_quoted {q : Char} (hq : IsQuote q) (s : List Char) :
    string (quoted q s) = .ok s := by
  unfold string
  simp only [inside_quoted]
  split
  · rw [requote_escaped hq]
    refine unescapeFrom_escaped _ s 1 _ ?_
    rw [List.length_append, List.length_cons]
    omega
  · rename_i hplain
    rw [escaped_eq_self (by simpa using hplain)]

/-! ## Numbers -/

/-- A decimal numeral of an integer. Leading zeros are allowed, and zero may have a sign. -/
inductive IsNumeral (n : Int64) : List Char → Prop where
  | plain {ds : List Char} : ds ≠ [] → (∀ d ∈ ds, d.isDigit = true) →
      (decimalValue ds : Int) = n.toInt → IsNumeral n ds
  | negative {ds : List Char} : ds ≠ [] → (∀ d ∈ ds, d.isDigit = true) →
      -(decimalValue ds : Int) = n.toInt → IsNumeral n ('-' :: ds)

theorem integer_of_isNumeral {n : Int64} {text : List Char} (h : IsNumeral n text) :
    integer text = .ok n := by
  have hlow := n.le_toInt
  have hhigh := n.toInt_lt
  cases h with
  | @plain ds hne hdigits hvalue =>
    have hbound : decimalValue text < Nat.pow 2 63 := by
      have : Nat.pow 2 63 = 9223372036854775808 := rfl
      omega
    unfold integer
    split
    · rename_i more
      have hminus := hdigits '-' (by simp)
      simp at hminus
    · rw [if_pos hbound, hvalue, Int64.ofInt_toInt]
  | @negative ds hne hdigits hvalue =>
    have hbound : decimalValue ds ≤ Nat.pow 2 63 := by
      have : Nat.pow 2 63 = 9223372036854775808 := rfl
      omega
    simp only [integer]
    rw [if_pos hbound, hvalue, Int64.ofInt_toInt]

/-- Every number has a numeral. -/
theorem exists_isNumeral (n : Int64) : ∃ text, IsNumeral n text := by
  have hvalue : ∀ k : Nat, decimalValue (Nat.toDigits 10 k) = k := by
    intro k
    rw [decimalValue, ← Nat.ofDigitChars_eq_foldl, Nat.ofDigitChars_ten_toDigits]
  have hdigits : ∀ k : Nat, ∀ d ∈ Nat.toDigits 10 k, d.isDigit = true := fun k d hd =>
    Nat.isDigit_of_mem_toDigits (by decide) (by decide) hd
  by_cases hn : 0 ≤ n.toInt
  · refine ⟨Nat.toDigits 10 n.toInt.toNat, .plain Nat.toDigits_ne_nil (hdigits _) ?_⟩
    rw [hvalue]
    omega
  · refine ⟨'-' :: Nat.toDigits 10 (-n.toInt).toNat, .negative Nat.toDigits_ne_nil (hdigits _) ?_⟩
    rw [hvalue]
    omega

end Literal

/-! ## Spellings -/

open Token Literal in
/-- The token is one of the spellings of a literal value. -/
inductive Spelled : Token → Value → Prop where
  | none {text : String} : text ∈ ["none", "None"] → Spelled (ofIdentifier text.toList) .none
  | true {text : String} : text ∈ ["true", "True"] →
      Spelled (ofIdentifier text.toList) (.bool true)
  | false {text : String} : text ∈ ["false", "False"] →
      Spelled (ofIdentifier text.toList) (.bool false)
  | int {n : Int64} {text : List Char} : IsNumeral n text → Spelled ⟨.integer, text⟩ (.int n)
  | string {q : Char} (s : String) : IsQuote q →
      Spelled ⟨.string, quoted q s.toList⟩ (.string s)

/-- A spelling is read as the value it spells. -/
theorem Spelled.denotes {t : Token} {v : Value} (h : Spelled t v) : Token.Denotes t v := by
  cases h with
  | none ht =>
    simp only [List.mem_cons, List.not_mem_nil, or_false] at ht
    rcases ht with rfl | rfl <;> exact .word (by rfl)
  | true ht =>
    simp only [List.mem_cons, List.not_mem_nil, or_false] at ht
    rcases ht with rfl | rfl <;> exact .word (by rfl)
  | false ht =>
    simp only [List.mem_cons, List.not_mem_nil, or_false] at ht
    rcases ht with rfl | rfl <;> exact .word (by rfl)
  | int hn => exact .integer (by rw [Expr.integerLiteral, Literal.integer_of_isNumeral hn])
  | string s hq =>
    refine .string ?_
    rw [Expr.stringLiteral, Literal.string_quoted hq]
    simp

end LiveDoc
