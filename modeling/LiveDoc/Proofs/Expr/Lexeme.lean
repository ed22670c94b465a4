import LiveDoc.Proofs.Expr.Spelling

/-!
# What the reader of tokens takes for a token

`Genuine` says which texts the kinds of tokens may have.

* `read_sound` — one token that is read is genuine, and stands in the source in front of what is
  left;
* `tokens_sound` — so the tokens of a source are genuine and, but for blanks between them, they are
  the whole source.
-/

namespace LiveDoc.Token

/-! ## Genuine tokens -/

/-- One digit or more. -/
def IsDigits (ds : List Char) : Prop := ds ≠ [] ∧ ∀ d ∈ ds, d.isDigit = true

/-- A sign that a number can start with: none or a minus sign. -/
def IsSign (sign : List Char) : Prop := sign = [] ∨ sign = ['-']

/-- An exponent: `e` or `E`, a sign if any, and digits. -/
inductive IsExponent : List Char → Prop where
  | mk {e : Char} {sign ds : List Char} : e = 'e' ∨ e = 'E' →
      sign = [] ∨ sign = ['+'] ∨ sign = ['-'] → IsDigits ds → IsExponent (e :: sign ++ ds)

/-- What makes a number a floating point number: a fraction, an exponent, or both. -/
inductive IsFractional : List Char → Prop where
  | fraction {ds : List Char} : IsDigits ds → IsFractional ('.' :: ds)
  | exponent {ex : List Char} : IsExponent ex → IsFractional ex
  | both {ds ex : List Char} : IsDigits ds → IsExponent ex → IsFractional ('.' :: ds ++ ex)

/-- What can stand between `q` quotes: a backslash takes the next character with it, which is no
line feed, and the quote does not stand alone. -/
inductive IsQuotable (q : Char) : List Char → Prop where
  | nil : IsQuotable q []
  | plain {c : Char} {rest : List Char} : c ≠ q → c ≠ '\\' → IsQuotable q rest →
      IsQuotable q (c :: rest)
  | escape {c : Char} {rest : List Char} : c ≠ '\n' → IsQuotable q rest →
      IsQuotable q ('\\' :: c :: rest)

/-- The text of the token is one that its kind may have. -/
inductive Genuine : Token → Prop where
  | mark {t : Token} : IsMark t → Genuine t
  | identifier {text : List Char} : IsIdentifier text → Genuine (ofIdentifier text)
  | string {q : Char} {inner : List Char} : Literal.IsQuote q → IsQuotable q inner →
      Genuine ⟨.string, q :: (inner ++ [q])⟩
  | integer {sign ds : List Char} : IsSign sign → IsDigits ds → Genuine ⟨.integer, sign ++ ds⟩
  | float {sign ds tail : List Char} : IsSign sign → IsDigits ds → IsFractional tail →
      Genuine ⟨.float, sign ++ ds ++ tail⟩

/-! ## Strings and numbers -/

theorem quotedBody_sound {q : Char} {s body after : List Char}
    (h : quotedBody q s = .ok (body, after)) :
    ∃ inner, body = inner ++ [q] ∧ IsQuotable q inner ∧ s = body ++ after := by
  fun_induction quotedBody q s generalizing body after with
  | case1 => cases h
  | case2 rest =>
    cases h
    exact ⟨[], rfl, .nil, rfl⟩
  | case3 => cases h
  | case4 => cases h
  | case5 d more hd body' after' hbody _ ih =>
    cases h
    obtain ⟨inner, rfl, hinner, rfl⟩ := ih hbody
    exact ⟨'\\' :: d :: inner, rfl, .escape hd hinner, rfl⟩
  | case6 => cases h
  | case7 c rest hq hb body' after' hbody ih =>
    cases h
    obtain ⟨inner, rfl, hinner, rfl⟩ := ih hbody
    exact ⟨c :: inner, rfl, .plain hq hb hinner, rfl⟩
  | case8 => cases h

theorem digits_append (s : List Char) : s = (digits s).1 ++ (digits s).2 :=
  (Text.span_sound Char.isDigit s).1

theorem isDigits_digits {s : List Char} (hne : ¬ (digits s).1.isEmpty = true) :
    IsDigits (digits s).1 :=
  ⟨by simpa using hne, (Text.span_sound Char.isDigit s).2.1⟩

theorem exponent?_sound {s ex after : List Char} (h : exponent? s = some (ex, after)) :
    IsExponent ex ∧ s = ex ++ after := by
  cases s with
  | nil => simp [exponent?] at h
  | cons e rest =>
    rw [exponent?.eq_def] at h
    dsimp only at h
    split at h
    · next he =>
      -- whatever the sign is, it stands in front of the digits
      obtain ⟨sign, unsigned, hsign, hrest, h⟩ : ∃ sign unsigned : List Char,
          (sign = [] ∨ sign = ['+'] ∨ sign = ['-']) ∧ rest = sign ++ unsigned ∧
          (if (digits unsigned).1.isEmpty then none
            else some (e :: sign ++ (digits unsigned).1, (digits unsigned).2)) =
              some (ex, after) := by
        cases rest with
        | nil => exact ⟨[], [], .inl rfl, rfl, h⟩
        | cons c more =>
          dsimp only at h
          by_cases hc : (decide (c = '+') || decide (c = '-')) = true
          · simp only [if_pos hc] at h
            exact ⟨[c], more, .inr (by simpa using hc), rfl, h⟩
          · simp only [if_neg hc] at h
            exact ⟨[], c :: more, .inl rfl, rfl, h⟩
      split at h
      · cases h
      · next hne =>
        obtain ⟨rfl, rfl⟩ := Prod.mk.inj (Option.some.inj h)
        refine ⟨.mk (by simpa using he) hsign (isDigits_digits hne), ?_⟩
        rw [hrest, List.cons_append, List.cons_append, List.append_assoc, ← digits_append]
    · cases h

theorem fraction?_sound {s fr after : List Char} (h : fraction? s = some (fr, after)) :
    (∃ ds, IsDigits ds ∧ fr = '.' :: ds) ∧ s = fr ++ after := by
  unfold fraction? at h
  split at h
  · next rest =>
    dsimp only at h
    split at h
    · cases h
    · next hne =>
      obtain ⟨rfl, rfl⟩ := Prod.mk.inj (Option.some.inj h)
      exact ⟨⟨_, isDigits_digits hne, rfl⟩, by rw [List.cons_append, ← digits_append]⟩
  · cases h

theorem numberTail_sound (s : List Char) :
    s = (numberTail s).2.1 ++ (numberTail s).2.2 ∧
      ((numberTail s).1 = .integer ∧ (numberTail s).2.1 = [] ∨
        (numberTail s).1 = .float ∧ IsFractional (numberTail s).2.1) := by
  unfold numberTail
  split
  · next fr rest hfr =>
    obtain ⟨⟨ds, hds, rfl⟩, hs⟩ := fraction?_sound hfr
    split
    · next ex after hex =>
      obtain ⟨hexponent, hrest⟩ := exponent?_sound hex
      exact ⟨by rw [hs, hrest, List.append_assoc], .inr ⟨rfl, .both hds hexponent⟩⟩
    · exact ⟨hs, .inr ⟨rfl, .fraction hds⟩⟩
  · split
    · next ex after hex =>
      obtain ⟨hexponent, hs⟩ := exponent?_sound hex
      exact ⟨hs, .inr ⟨rfl, .exponent hexponent⟩⟩
    · exact ⟨rfl, .inl ⟨rfl, rfl⟩⟩

theorem number?_sound {sign s after : List Char} {t : Token} (hsign : IsSign sign)
    (h : number? sign s = some (t, after)) : Genuine t ∧ sign ++ s = t.text ++ after := by
  unfold number? at h
  dsimp only at h
  split at h
  · cases h
  · next hne =>
    have hdigits := isDigits_digits hne
    obtain ⟨htail, hkind⟩ := numberTail_sound (digits s).2
    obtain ⟨rfl, rfl⟩ := Prod.mk.inj (Option.some.inj h)
    refine ⟨?_, ?_⟩
    · rcases hkind with ⟨hkind, hnil⟩ | ⟨hkind, hfractional⟩
      · rw [hkind, hnil, List.append_nil]
        exact .integer hsign hdigits
      · rw [hkind]
        exact .float hsign hdigits hfractional
    · dsimp only
      rw [List.append_assoc, List.append_assoc, ← htail, ← digits_append]

/-! ## One token -/

/-- A token that is read is genuine, and the source is its text with what is left behind it. -/
theorem read_sound {c : Char} {rest after : List Char} {t : Token}
    (h : read c rest = .ok (t, after)) : Genuine t ∧ c :: rest = t.text ++ after := by
  have hmark : ∀ m : Token, IsMark m → m.text = [c] → t = m → after = rest →
      Genuine t ∧ c :: rest = t.text ++ after := by
    rintro m hm htext rfl rfl
    exact ⟨.mark hm, by rw [htext]; rfl⟩
  unfold read at h
  split at h
  · next hc =>
    subst hc
    cases h
    exact hmark opening isMark_opening rfl rfl rfl
  split at h
  · next hc =>
    subst hc
    cases h
    exact hmark closing isMark_closing rfl rfl rfl
  split at h
  · next hc =>
    subst hc
    cases h
    exact hmark separator isMark_separator rfl rfl rfl
  split at h
  · next hc =>
    subst hc
    cases h
    exact hmark binding isMark_binding rfl rfl rfl
  split at h
  · next hstart =>
    obtain ⟨hrest, hparts, -⟩ := Text.span_sound isIdentifierPart rest
    cases h
    exact ⟨.identifier ⟨c, _, rfl, hstart, hparts⟩, congrArg (c :: ·) hrest⟩
  split at h
  · next hq =>
    split at h
    · next body after' hbody =>
      obtain ⟨inner, rfl, hinner, rfl⟩ := quotedBody_sound hbody
      cases h
      exact ⟨.string (by simpa [Literal.IsQuote] using hq) hinner, rfl⟩
    · cases h
  · split at h
    · next result hnumber =>
      cases h
      split at hnumber
      · next hminus =>
        subst hminus
        exact number?_sound (.inr rfl) hnumber
      · exact number?_sound (.inl rfl) hnumber
    · cases h

theorem Genuine.text_ne_nil {t : Token} (h : Genuine t) : t.text ≠ [] := by
  cases h with
  | mark ht =>
    simp only [IsMark, List.mem_cons, List.not_mem_nil, or_false] at ht
    rcases ht with rfl | rfl | rfl | rfl <;> simp [opening, closing, separator, binding]
  | identifier hi =>
    obtain ⟨c, rest, rfl, -⟩ := hi
    simp [ofIdentifier]
  | string => simp
  | integer _ hds => simp [hds.1]
  | float _ hds => simp [hds.1]

/-! ## All tokens -/

theorem Spaced.blank_cons {c : Char} {ts : List Token} {rest : List Char} (hc : isSpace c = true)
    (h : Spaced ts rest) : Spaced ts (c :: rest) := by
  cases h with
  | nil hblanks => exact .nil (List.forall_mem_cons.mpr ⟨hc, hblanks⟩)
  | @cons blanks t ts rest hblanks hrest =>
    exact @Spaced.cons (c :: blanks) t ts rest (List.forall_mem_cons.mpr ⟨hc, hblanks⟩) hrest

/-- With fuel for every character, the tokens that are read make up the source. -/
theorem readAll_sound {fuel place : Nat} {s : List Char} {ts : List Token} (hfuel : s.length ≤ fuel)
    (h : readAll fuel place s = .ok ts) : Spaced ts s ∧ ∀ t ∈ ts, Genuine t := by
  induction fuel generalizing place s ts with
  | zero =>
    obtain rfl : s = [] := List.length_eq_zero_iff.mp (by omega)
    cases h
    exact ⟨.nil (by simp), by simp⟩
  | succ fuel ih =>
    cases s with
    | nil =>
      cases h
      exact ⟨.nil (by simp), by simp⟩
    | cons c rest =>
      rw [List.length_cons] at hfuel
      rw [readAll] at h
      split at h
      · next hc =>
        obtain ⟨hspaced, hgenuine⟩ := ih (by omega) h
        exact ⟨hspaced.blank_cons hc, hgenuine⟩
      · split at h
        · cases h
        · next t after hread =>
          obtain ⟨ht, hsource⟩ := read_sound hread
          have hlen : after.length ≤ rest.length := by
            have hpos := List.length_pos_iff.mpr ht.text_ne_nil
            have hboth := congrArg List.length hsource
            rw [List.length_cons, List.length_append] at hboth
            omega
          split at h
          · next more hmore =>
            cases h
            obtain ⟨hspaced, hgenuine⟩ := ih (by omega) hmore
            refine ⟨?_, List.forall_mem_cons.mpr ⟨ht, hgenuine⟩⟩
            rw [hsource]
            exact @Spaced.cons [] t more after (by simp) hspaced
          · cases h

/-- The tokens of a source are genuine, and but for blanks they are the whole source. -/
theorem tokens_sound {source : List Char} {ts : List Token} (h : tokens source = .ok ts) :
    Spaced ts source ∧ ∀ t ∈ ts, Genuine t :=
  readAll_sound (Nat.le_refl _) h

end LiveDoc.Token
