import LiveDoc.Proofs.Item.Declaration

/-!
# Every declaration is found

A text whose tokens are well-formed declarations, one after the other, holds exactly these items
(`scan_of_declarations`). Each look-ahead stops where the grammar says that a group, a clause or a
header ends; a declaration is then read as a whole (`scanItem_declaration`), and the induction is on
the declarations.
-/

namespace LiveDoc.Item

variable {last : Lexeme}

/-! ## Look-ahead -/

theorem append_group (o c : Lexeme) (inner ts rest : List Lexeme) :
    o :: (inner ++ c :: ts) ++ rest = o :: (inner ++ c :: (ts ++ rest)) := by
  rw [List.cons_append, List.append_assoc, List.cons_append]

/-- Balanced tokens leave the number of open groups as it was. -/
theorem matchingClose_balanced {inner : List Lexeme} (h : Balanced inner) (depth : Nat)
    (rest : List Lexeme) :
    matchingClose last (depth + 1) (inner ++ rest) = matchingClose last (depth + 1) rest := by
  induction h generalizing depth rest with
  | nil => rfl
  | @single t ts hopen hclose _ ih =>
    rw [List.cons_append, ← ih depth rest, matchingClose]
    split
    · next hkind => exact absurd hkind hopen
    · next hkind => exact absurd hkind hclose
    · rfl
  | @group o c inner ts hopen _ hclose _ ihInner ih =>
    rw [append_group, matchingClose, hopen]
    dsimp only
    rw [ihInner (depth + 1), matchingClose, hclose]
    dsimp only
    rw [if_neg (by omega)]
    exact ih depth rest

/-- A group ends with the bracket that closes it. -/
theorem matchingClose_group {o c : Lexeme} {inner : List Lexeme} (ho : o.kind = .open)
    (hinner : Balanced inner) (hc : c.kind = .close) (rest : List Lexeme) :
    matchingClose last 0 (o :: (inner ++ c :: rest)) = c :: rest := by
  rw [matchingClose, ho]
  dsimp only
  rw [matchingClose_balanced hinner 0, matchingClose, hc]
  rfl

theorem skipGroup_group {o c : Lexeme} {inner : List Lexeme} (ho : o.kind = .open)
    (hinner : Balanced inner) (hc : c.kind = .close) (rest : List Lexeme) :
    skipGroup last (o :: (inner ++ c :: rest)) = rest := by
  rw [skipGroup, matchingClose_group ho hinner hc, List.tail_cons]

theorem semicolonFrom_balanced {inner : List Lexeme} (h : Balanced inner) (depth : Nat)
    (rest : List Lexeme) :
    semicolonFrom last (depth + 1) (inner ++ rest) = semicolonFrom last (depth + 1) rest := by
  induction h generalizing depth rest with
  | nil => rfl
  | @single t ts hopen hclose _ ih =>
    rw [List.cons_append, ← ih depth rest, semicolonFrom]
    split
    · next hkind => exact absurd hkind hopen
    · next hkind => exact absurd hkind hclose
    · rw [if_neg (by omega)]
    · rfl
  | @group o c inner ts hopen _ hclose _ ihInner ih =>
    rw [append_group, semicolonFrom, hopen]
    dsimp only
    rw [ihInner (depth + 1), semicolonFrom, hclose]
    exact ih depth rest

/-- A clause is skipped up to the semicolon behind it. -/
theorem semicolonFrom_clause {clause : List Lexeme} (h : Clause clause) {t : Lexeme}
    (ht : t.kind = .semicolon) (rest : List Lexeme) :
    semicolonFrom last 0 (clause ++ t :: rest) = t :: rest := by
  induction h with
  | nil => simp [semicolonFrom, ht]
  | @single s ts hopen hclose hsemicolon _ ih =>
    rw [List.cons_append, semicolonFrom]
    split
    · next hkind => exact absurd hkind hopen
    · next hkind => exact absurd hkind hclose
    · next hkind => exact absurd hkind hsemicolon
    · exact ih
  | @group o c inner ts hopen hinner hclose _ ih =>
    rw [append_group, semicolonFrom, hopen]
    dsimp only
    rw [semicolonFrom_balanced hinner 0, semicolonFrom, hclose]
    exact ih

theorem bodyOrSemicolonFrom_balanced {inner : List Lexeme} (h : Balanced inner)
    (depth angles : Nat) (rest : List Lexeme) :
    bodyOrSemicolonFrom last (depth + 1) angles (inner ++ rest) =
      bodyOrSemicolonFrom last (depth + 1) angles rest := by
  induction h generalizing depth rest with
  | nil => rfl
  | @single t ts hopen hclose _ ih =>
    rw [List.cons_append, ← ih depth rest, bodyOrSemicolonFrom]
    split
    · next hkind => exact absurd hkind hopen
    · next hkind => exact absurd hkind hclose
    · simp
    · simp
    · simp
    · rfl
  | @group o c inner ts hopen _ hclose _ ihInner ih =>
    rw [append_group, bodyOrSemicolonFrom, hopen]
    dsimp only
    rw [if_neg (by simp), ihInner (depth + 1), bodyOrSemicolonFrom, hclose]
    exact ih depth rest

/-- A header is skipped up to what comes behind it. -/
theorem bodyOrSemicolonFrom_header {angles : Nat} {header : List Lexeme} (h : Header angles header)
    (rest : List Lexeme) :
    bodyOrSemicolonFrom last 0 angles (header ++ rest) = bodyOrSemicolonFrom last 0 0 rest := by
  induction h with
  | nil => rfl
  | @single n t ts hopen hclose hangle hangle' hsemicolon _ ih =>
    rw [List.cons_append, bodyOrSemicolonFrom]
    split
    · next hkind => exact absurd hkind hopen
    · next hkind => exact absurd hkind hclose
    · next hkind =>
      have hn : n ≠ 0 := fun hn => hsemicolon hn hkind
      rw [if_neg (by simp [hn])]
      exact ih
    · next hkind => exact absurd hkind hangle
    · next hkind => exact absurd hkind hangle'
    · exact ih
  | @angleOpen n t ts hkind _ ih =>
    rw [List.cons_append, bodyOrSemicolonFrom, hkind]
    exact ih
  | @angleClose n t ts hkind _ ih =>
    rw [List.cons_append, bodyOrSemicolonFrom, hkind]
    exact ih
  | @group n o c inner ts hopen hbrace hinner hclose _ ih =>
    rw [append_group, bodyOrSemicolonFrom, hopen]
    dsimp only
    rw [if_neg (by simpa using fun hn => hbrace hn), bodyOrSemicolonFrom_balanced hinner 0,
      bodyOrSemicolonFrom, hclose]
    exact ih

/-! ## In front of the keyword -/

theorem isWord_iff {s : String} {t : Lexeme} : t.isWord s ↔ t.kind = .word ∧ t.text = s.toList := by
  simp [Lexeme.isWord]

/-- Texts of words. -/
theorem textAt_of_isWord {s : String} {t : Lexeme} (h : t.isWord s) (rest : List Lexeme) :
    textAt (t :: rest) = s.toList := (isWord_iff.mp h).2

theorem kindAt_of_isWord {s : String} {t : Lexeme} (h : t.isWord s) (rest : List Lexeme) :
    kindAt (t :: rest) = some .word := congrArg some (isWord_iff.mp h).1

/-! The keywords of items are told apart from each other and from other words. -/

theorem keyword_ne_modifier : ∀ e ∈ keywords, e.1 ≠ .const →
    ∀ s ∈ ["pub", "const", "extern", "async", "unsafe", "default", "auto", "safe"],
      e.2.toList ≠ s.toList := by decide

theorem ofKeyword?_keyword : ∀ e ∈ keywords, Kind.ofKeyword? e.2.toList = some e.1 := by decide

theorem keyword_ne_other : ∀ e ∈ keywords,
    e.2.toList ≠ "extern".toList ∧ e.2.toList ≠ "macro_rules".toList := by decide

theorem kind_of_keyword : ∀ e ∈ keywords,
    (e.1.isNamed = decide (e.1 ∉ Declaration.namelessKinds)) ∧
      (e.1.endsWithSemicolon = decide (e.1 ∈ Declaration.semicolonKinds)) ∧ e.1 ≠ .macroRules := by
  decide

theorem union_of_keyword : ∀ e ∈ keywords, e.2.toList = "union".toList → e.1 = .union := by decide

/-- Words that may come first when a function starts behind `const`. -/
def functionWords : List String := ["fn", "unsafe", "async", "extern"]

/-- A word that is no modifier is where the modifiers end. -/
theorem skipModifiers_of_text {ts : List Lexeme}
    (h : ∀ s ∈ ["pub", "const", "extern", "async", "unsafe", "default", "auto", "safe"],
      textAt ts ≠ s.toList) (fuel : Nat) : skipModifiers last fuel ts = ts := by
  cases fuel with
  | zero => rfl
  | succ fuel =>
    have hqualifier : ["async", "unsafe", "default", "auto", "safe"].any
        (fun s => decide (s.toList = textAt ts)) = false := by
      rw [List.any_eq_false]
      intro s hs heq
      have hmem : s ∈ ["pub", "const", "extern", "async", "unsafe", "default", "auto", "safe"] :=
        List.mem_append_right ["pub", "const", "extern"] hs
      exact h s hmem (of_decide_eq_true heq).symm
    rw [skipModifiers]
    simp only [h "pub" (by simp), h "const" (by simp), h "extern" (by simp), hqualifier, if_false,
      decide_false, Bool.false_and, Bool.false_eq_true]

/-- A constant is no function, so its keyword is where the modifiers end. -/
theorem skipModifiers_const {ts : List Lexeme} (htext : textAt ts = "const".toList)
    (hnext : ∀ s ∈ functionWords, isWordAt s ts.tail = false) (fuel : Nat) :
    skipModifiers last fuel ts = ts := by
  cases fuel with
  | zero => rfl
  | succ fuel =>
    have hany : ["fn", "unsafe", "async", "extern"].any (isWordAt · ts.tail) = false := by
      rw [List.any_eq_false]
      intro s hs
      rw [hnext s hs]
      exact Bool.false_ne_true
    simp only [skipModifiers, htext, hany, Bool.and_false, Bool.false_eq_true, if_false]
    rfl

/-- Behind `const`, the qualifiers and the keyword of a function start with one of a few words. -/
theorem exists_functionWord {rank : Nat} {qs ts : List Lexeme} (h : Qualifiers rank qs)
    (hrank : 1 ≤ rank) (hts : ∃ s ∈ functionWords, isWordAt s ts) :
    ∃ s ∈ functionWords, isWordAt s (qs ++ ts) := by
  cases h with
  | nil => exact hts
  | const => omega
  | async _ hword => exact ⟨"async", by simp [functionWords], by simpa [isWordAt] using hword⟩
  | unsafe' _ hword => exact ⟨"unsafe", by simp [functionWords], by simpa [isWordAt] using hword⟩
  | extern' hword => exact ⟨"extern", by simp [functionWords], by simpa [isWordAt] using hword⟩

theorem kindAt_of_isWordAt {s : String} {ts : List Lexeme} (h : isWordAt s ts) :
    kindAt ts = some .word := by
  cases ts with
  | nil => cases h
  | cons t rest =>
    have ht : t.isWord s := by simpa [isWordAt] using h
    exact kindAt_of_isWord ht rest

/-- A qualifier that may stand in front of any word is skipped. -/
theorem skipModifiers_plain {s : String} {t : Lexeme} {ts : List Lexeme} (hword : t.isWord s)
    (hs : s ∈ ["async", "unsafe"]) (hnext : kindAt ts = some .word) (fuel : Nat) :
    skipModifiers last (fuel + 1) (t :: ts) = skipModifiers last fuel ts := by
  have hany : ["async", "unsafe", "default", "auto", "safe"].any
      (fun r => decide (r.toList = s.toList)) = true := by
    rw [List.any_eq_true]
    exact ⟨s, List.mem_append_left _ hs, decide_eq_true rfl⟩
  have hother : ∀ r ∈ ["pub", "const", "extern"], s.toList ≠ r.toList := by
    rcases List.mem_cons.mp hs with rfl | hs
    · decide
    · obtain rfl := List.mem_singleton.mp hs
      decide
  rw [skipModifiers]
  simp only [textAt_of_isWord hword, hother "pub" (by simp), hother "const" (by simp),
    hother "extern" (by simp), List.tail_cons, hnext, hany, if_false, decide_false, decide_true,
    Bool.false_and, Bool.and_true, Bool.false_eq_true, if_true]

/-- In front of a word, qualifiers start with a word. -/
theorem Qualifiers.kindAt_append {rank : Nat} {qs ts : List Lexeme} (h : Qualifiers rank qs)
    (hts : kindAt ts = some .word) : kindAt (qs ++ ts) = some .word := by
  cases h with
  | nil => exact hts
  | const hq => exact kindAt_of_isWord hq _
  | async _ hq => exact kindAt_of_isWord hq _
  | unsafe' _ hq => exact kindAt_of_isWord hq _
  | extern' hq => exact kindAt_of_isWord hq _

theorem Visibility.kindAt_append {vs ts : List Lexeme} (h : Visibility vs)
    (hts : kindAt ts = some .word) : kindAt (vs ++ ts) = some .word := by
  cases h with
  | inherited => exact hts
  | pub hp => exact kindAt_of_isWord hp _
  | restricted hp => exact kindAt_of_isWord hp _

/-- The qualifiers of a function are skipped. -/
theorem skipModifiers_qualifiers (last : Lexeme) {rank : Nat} {qs ts : List Lexeme}
    (h : Qualifiers rank qs) (hts : ∃ s ∈ functionWords, isWordAt s ts) {fuel : Nat}
    (hfuel : qs.length ≤ fuel) :
    ∃ left, fuel ≤ left + qs.length ∧
      skipModifiers last fuel (qs ++ ts) = skipModifiers last left ts := by
  induction h generalizing fuel with
  | nil => exact ⟨fuel, by simp, rfl⟩
  | @const t qs hword hqs ih =>
    obtain ⟨fuel, rfl⟩ : ∃ n, fuel = n + 1 := ⟨fuel - 1, by simp at hfuel; omega⟩
    obtain ⟨s, hs, hnext⟩ := exists_functionWord hqs (Nat.le_refl 1) hts
    have hany : ["fn", "unsafe", "async", "extern"].any (isWordAt · (qs ++ ts)) = true :=
      List.any_eq_true.mpr ⟨s, hs, hnext⟩
    obtain ⟨left, hleft, hskip⟩ := ih (show qs.length ≤ fuel by simpa using hfuel)
    refine ⟨left, by simp; omega, ?_⟩
    rw [List.cons_append, skipModifiers]
    simp only [textAt_of_isWord hword, List.tail_cons, hany]
    rw [if_neg (by decide), if_pos (by decide)]
    exact hskip
  | @async rank t qs _ hword hqs ih =>
    obtain ⟨fuel, rfl⟩ : ∃ n, fuel = n + 1 := ⟨fuel - 1, by simp at hfuel; omega⟩
    obtain ⟨s, _, hnext⟩ := exists_functionWord hqs (by omega) hts
    obtain ⟨left, hleft, hskip⟩ := ih (show qs.length ≤ fuel by simpa using hfuel)
    refine ⟨left, by simp; omega, ?_⟩
    rw [List.cons_append]
    exact (skipModifiers_plain hword (by decide) (kindAt_of_isWordAt hnext) fuel).trans hskip
  | @unsafe' rank t qs _ hword hqs ih =>
    obtain ⟨fuel, rfl⟩ : ∃ n, fuel = n + 1 := ⟨fuel - 1, by simp at hfuel; omega⟩
    obtain ⟨s, _, hnext⟩ := exists_functionWord hqs (by omega) hts
    obtain ⟨left, hleft, hskip⟩ := ih (show qs.length ≤ fuel by simpa using hfuel)
    refine ⟨left, by simp; omega, ?_⟩
    rw [List.cons_append]
    exact (skipModifiers_plain hword (by decide) (kindAt_of_isWordAt hnext) fuel).trans hskip
  | @extern' rank t abi hword habi =>
    obtain ⟨fuel, rfl⟩ : ∃ n, fuel = n + 1 := ⟨fuel - 1, by simp at hfuel; omega⟩
    obtain ⟨s, hs, hfirst⟩ := hts
    have hcrate : isWordAt "crate" ts = false := by
      cases ts with
      | nil => rfl
      | cons u rest =>
        have hu : u.isWord s := by simpa [isWordAt] using hfirst
        have hne : ∀ s ∈ functionWords, s.toList ≠ "crate".toList := by decide
        simpa [isWordAt, Lexeme.isWord, (isWord_iff.mp hu).2] using fun _ => hne s hs
    have habi' : kindAt (abi :: ts) = some .literal := congrArg some habi
    refine ⟨fuel, by simp, ?_⟩
    rw [List.cons_append, List.singleton_append, skipModifiers]
    simp only [textAt_of_isWord hword, List.tail_cons, habi', hcrate, kindAt_of_isWordAt hfirst]
    rw [if_neg (by decide), if_neg (by simp), if_pos (by decide)]

/-- The visibility is skipped. -/
theorem skipModifiers_visibility (last : Lexeme) {vs ts : List Lexeme} (h : Visibility vs)
    (hts : kindAt ts = some .word) {fuel : Nat} (hfuel : 1 ≤ fuel) :
    ∃ left, fuel ≤ left + 1 ∧ skipModifiers last fuel (vs ++ ts) = skipModifiers last left ts := by
  obtain ⟨fuel, rfl⟩ : ∃ n, fuel = n + 1 := ⟨fuel - 1, by omega⟩
  cases h with
  | inherited => exact ⟨fuel + 1, by omega, rfl⟩
  | @pub p hword =>
    refine ⟨fuel, Nat.le_refl _, ?_⟩
    rw [List.singleton_append, skipModifiers]
    simp [textAt_of_isWord hword, hts]
  | @restricted p o c inner hword ho htext hinner hc =>
    refine ⟨fuel, Nat.le_refl _, ?_⟩
    have hopen : kindAt (o :: (inner ++ c :: ts)) = some .open := congrArg some ho
    have hparen : textAt (o :: (inner ++ c :: ts)) = ['('] := htext
    have hgroup : skipGroup last (o :: (inner ++ c :: ts)) = ts := skipGroup_group ho hinner hc ts
    rw [List.cons_append, append_group, List.nil_append, skipModifiers]
    simp only [textAt_of_isWord hword, List.tail_cons, hopen, hparen, hgroup]
    rfl

/-! ## Names -/

theorem bareName_eq (text : List Char) :
    bareName text = if Lexeme.starts "r#" text then text.drop 2 else text := by
  unfold bareName
  split
  · rfl
  · next h =>
    rw [if_neg]
    intro hstarts
    obtain ⟨rest, hrest⟩ := List.isPrefixOf_iff_prefix.mp hstarts
    exact h rest hrest.symm

/-- The name at a place is the bare text of the word there. -/
theorem nameAt?_cons (t : Lexeme) (rest : List Lexeme) : nameAt? (t :: rest) =
    if t.kind = .word then some (String.ofList (bareName t.text)) else none := by
  have hkind : kindAt (t :: rest) = some t.kind := rfl
  have htext : textAt (t :: rest) = t.text := rfl
  rw [nameAt?, hkind, htext, bareName_eq]
  simp only [Option.some.injEq]

namespace Declaration

variable {d : Declaration}

/-! ## Declarations -/

/-- Behind the keyword stands no exclamation mark. -/
theorem kindAt_rest (h : d.WellFormed) (more : List Lexeme) :
    kindAt (d.rest ++ more) ≠ some .bang := by
  by_cases hkind : d.kind ∈ namelessKinds
  · obtain ⟨-, hbang⟩ := h.nameless hkind
    have hne : d.rest ≠ [] := by
      unfold rest
      cases d.ending <;> simp [Ending.tokens]
    obtain ⟨t, ts, hrest⟩ := List.exists_cons_of_ne_nil hne
    rw [hrest] at hbang ⊢
    exact hbang
  · obtain ⟨name, hname, hword, -⟩ := h.named hkind
    unfold rest
    rw [hname]
    cases hmut : d.mutability with
    | none => simp [kindAt, hword]
    | some t =>
      obtain ⟨-, ht⟩ := h.mutability t hmut
      simp [kindAt, (isWord_iff.mp ht).1]

/-- The name behind a keyword that needs one. -/
theorem rest_of_named (h : d.WellFormed) (hkind : d.kind ∉ namelessKinds)
    (hstatic : d.kind ≠ .static) : ∃ name, d.name = some name ∧ IsName name ∧
      d.rest = name :: (d.header ++ d.ending.tokens) := by
  obtain ⟨name, hname, hword⟩ := h.named hkind
  refine ⟨name, hname, hword, ?_⟩
  have hmut : d.mutability = none := by
    cases hmut : d.mutability with
    | none => rfl
    | some t => exact absurd (h.mutability t hmut).1 hstatic
  rw [rest, hname, hmut]
  rfl

/-- A keyword is where the modifiers end. -/
theorem skipModifiers_keyword (h : d.WellFormed) (more : List Lexeme) (fuel : Nat) :
    skipModifiers last fuel (d.keyword :: (d.rest ++ more)) = d.keyword :: (d.rest ++ more) := by
  obtain ⟨word, hmem, hword⟩ := h.keyword
  by_cases hconst : d.kind = .const
  · obtain ⟨name, -, ⟨-, hname⟩, hrest⟩ := rest_of_named h (by rw [hconst]; decide)
      (by rw [hconst]; decide)
    have hconstWord : word = "const" := by
      rw [hconst] at hmem
      simpa [keywords] using hmem
    refine skipModifiers_const ?_ ?_ fuel
    · rw [textAt_of_isWord hword, hconstWord]
    · intro s hs
      rw [hrest, List.tail_cons, List.cons_append]
      simp [isWordAt, Lexeme.isWord, hname s (List.mem_cons_of_mem _ hs)]
  · refine skipModifiers_of_text ?_ fuel
    rw [textAt_of_isWord hword]
    exact keyword_ne_modifier _ hmem hconst

/-- Qualifiers and keyword start with a word. -/
theorem kindAt_qualifiers (h : d.WellFormed) (behind : List Lexeme) :
    kindAt (d.qualifiers ++ d.keyword :: behind) = some .word := by
  obtain ⟨word, -, hword⟩ := h.keyword
  exact h.qualifiers.1.kindAt_append (kindAt_of_isWord hword behind)

theorem kindAt_modifiers (h : d.WellFormed) (behind : List Lexeme) :
    kindAt (d.modifiers ++ d.keyword :: behind) = some .word := by
  rw [modifiers, List.append_assoc]
  exact h.visibility.kindAt_append (kindAt_qualifiers h behind)

/-- What stands in front of the keyword is skipped. -/
theorem skipModifiers_modifiers (h : d.WellFormed) (more : List Lexeme) {fuel : Nat}
    (hfuel : d.modifiers.length + 1 ≤ fuel) :
    skipModifiers last fuel (d.modifiers ++ d.keyword :: (d.rest ++ more)) =
      d.keyword :: (d.rest ++ more) := by
  have hstop : ∀ fuel, skipModifiers last fuel (d.keyword :: (d.rest ++ more)) =
      d.keyword :: (d.rest ++ more) := skipModifiers_keyword h more
  have hlength : d.modifiers.length = d.visibility.length + d.qualifiers.length :=
    List.length_append
  obtain ⟨left, hleft, hskip⟩ := skipModifiers_visibility last h.visibility
    (kindAt_qualifiers h (d.rest ++ more)) (show 1 ≤ fuel by omega)
  rw [modifiers, List.append_assoc, hskip]
  by_cases hfn : d.kind = .function
  · have hkeyword : isWordAt "fn" (d.keyword :: (d.rest ++ more)) := by
      obtain ⟨word, hmem, hword⟩ := h.keyword
      rw [hfn] at hmem
      obtain rfl : word = "fn" := by simpa [keywords] using hmem
      exact hword
    obtain ⟨left', -, hqualifiers⟩ := skipModifiers_qualifiers last h.qualifiers.1
      ⟨"fn", by simp [functionWords], hkeyword⟩ (show d.qualifiers.length ≤ left by omega)
    rw [hqualifiers]
    exact hstop left'
  · rw [h.qualifiers.2 hfn]
    exact hstop left

/-- The place of the end, and of the body if there is one, in front of more tokens. -/
def bodyPlace? (d : Declaration) (more : List Lexeme) : Option (List Lexeme) :=
  match d.ending with
  | .semicolon _ => none
  | .body o inner c => some (o :: (inner ++ c :: more))

/-- The look-ahead finds the end of a declaration. -/
theorem extent_declaration (h : d.WellFormed) (more : List Lexeme) :
    extent last d.kind (d.header ++ (d.ending.tokens ++ more)) =
      (d.ending.last :: more, d.bodyPlace? more) := by
  obtain ⟨word, hmem, -⟩ := h.keyword
  obtain ⟨-, hsemicolon, hmacro⟩ := kind_of_keyword _ hmem
  unfold extent bodyPlace?
  by_cases hkind : d.kind ∈ semicolonKinds
  · obtain ⟨hclause, t, hending, ht⟩ := h.clause hkind
    rw [if_pos (by simpa [hsemicolon] using hkind), hending]
    exact congrArg (·, none) (semicolonFrom_clause hclause ht more)
  · obtain ⟨hheader, hending⟩ := h.header hkind
    rw [if_neg (by simpa [hsemicolon] using hkind), if_neg hmacro]
    rw [bodyOrSemicolonFrom_header hheader]
    cases hcase : d.ending with
    | semicolon t =>
      rw [hcase] at hending
      cases hending with
      | semicolon ht => simp [Ending.tokens, Ending.last, bodyOrSemicolonFrom, kindAt, ht]
    | body o inner c =>
      rw [hcase] at hending
      cases hending with
      | body ho htext hinner hc =>
        have hstop : bodyOrSemicolonFrom last 0 0 (o :: (inner ++ c :: more)) =
            o :: (inner ++ c :: more) := by
          rw [bodyOrSemicolonFrom, ho]
          simp [htext]
        rw [Ending.tokens, append_group, List.nil_append, hstop]
        simp only [kindAt, List.head?_cons, Option.map_some, ho, if_true,
          matchingClose_group ho hinner hc]
        rfl

/-- The keyword tells the kind of a declaration. -/
theorem keywordAt?_declaration (h : d.WellFormed) (more : List Lexeme) :
    keywordAt? (d.keyword :: (d.rest ++ more)) = some d.kind := by
  obtain ⟨word, hmem, hword⟩ := h.keyword
  unfold keywordAt?
  rw [textAt_of_isWord hword, List.tail_cons, if_neg (keyword_ne_other _ hmem).1, if_neg]
  · exact ofKeyword?_keyword _ hmem
  · -- the word `union` is a keyword only in front of a name
    intro hunion
    simp only [Bool.and_eq_true, decide_eq_true_eq] at hunion
    have hkind : d.kind = .union := union_of_keyword _ hmem hunion.1
    obtain ⟨name, -, hname, hrest⟩ := rest_of_named h (by rw [hkind]; decide)
      (by rw [hkind]; decide)
    rw [hrest] at hunion
    exact hunion.2 (congrArg some hname.1)

/-- The name of a declaration stands behind the `mut` of a static. -/
theorem namePlace_rest (h : d.WellFormed) (hkind : d.kind ∉ namelessKinds) (more : List Lexeme) :
    ∃ name, d.name = some name ∧ name.kind = .word ∧
      namePlace d.kind (d.rest ++ more) = name :: (d.header ++ (d.ending.tokens ++ more)) := by
  obtain ⟨word, hmem, -⟩ := h.keyword
  obtain ⟨-, -, hmacro⟩ := kind_of_keyword _ hmem
  obtain ⟨name, hname, hword, hreserved⟩ := h.named hkind
  refine ⟨name, hname, hword, ?_⟩
  have hmut : isWordAt "mut" (name :: (d.header ++ (d.ending.tokens ++ more))) = false := by
    have htext : name.text ≠ "mut".toList := hreserved "mut" (by simp)
    exact Bool.and_eq_false_imp.mpr fun _ => decide_eq_false htext
  rw [rest, hname, namePlace]
  cases hcase : d.mutability with
  | none =>
    have hrest : none.toList ++ ((some name).toList ++ (d.header ++ d.ending.tokens)) ++ more =
        name :: (d.header ++ (d.ending.tokens ++ more)) := by simp
    rw [hrest, hmut, Bool.and_false, if_neg Bool.false_ne_true, decide_eq_false hmacro,
      Bool.false_and, if_neg Bool.false_ne_true]
  | some t =>
    obtain ⟨hstatic, ht⟩ := h.mutability t hcase
    simp [hstatic, isWordAt, ht]

/-- Behind the keyword come the name, if the kind has one, and then the header. -/
theorem place_declaration (h : d.WellFormed) (more : List Lexeme) :
    (if d.kind.isNamed then nameAt? (namePlace d.kind (d.rest ++ more)) else none) = d.item.name ∧
      (if d.kind.isNamed then (namePlace d.kind (d.rest ++ more)).tail else d.rest ++ more) =
        d.header ++ (d.ending.tokens ++ more) := by
  obtain ⟨word, hmem, -⟩ := h.keyword
  obtain ⟨hnamed, -, -⟩ := kind_of_keyword _ hmem
  by_cases hkind : d.kind ∈ namelessKinds
  · obtain ⟨hname, -⟩ := h.nameless hkind
    have hmut : d.mutability = none := by
      cases hcase : d.mutability with
      | none => rfl
      | some t =>
        have hstatic := (h.mutability t hcase).1
        rw [hstatic] at hkind
        exact absurd hkind (by decide)
    rw [if_neg (by simpa [hnamed] using hkind), if_neg (by simpa [hnamed] using hkind), rest, hmut,
      hname, item, hname]
    exact ⟨rfl, by simp⟩
  · obtain ⟨name, hname, hword, hplace⟩ := namePlace_rest h hkind more
    rw [if_pos (by simpa [hnamed] using hkind), if_pos (by simpa [hnamed] using hkind), hplace,
      item, hname]
    refine ⟨?_, rfl⟩
    rw [nameAt?_cons, if_pos hword]
    rfl

/-- What the scanner notes about a body is what the declaration says. -/
theorem body_declaration (last : Lexeme) (h : d.WellFormed) (more : List Lexeme) :
    (d.bodyPlace? more).map (fun opening =>
        (⟨startAt last opening, d.ending.last.span.stop⟩ : Text.Span)) = d.ending.bodySpan? ∧
      ((d.bodyPlace? more).map innerDocsAfter).getD [] = d.ending.docs := by
  unfold bodyPlace?
  cases hcase : d.ending with
  | semicolon t => exact ⟨rfl, rfl⟩
  | body o inner c =>
    refine ⟨rfl, ?_⟩
    have hc : c.kind = .close := by
      by_cases hkind : d.kind ∈ semicolonKinds
      · obtain ⟨-, t, ht, -⟩ := h.clause hkind
        rw [hcase] at ht
        cases ht
      · have hending := (h.header hkind).2
        rw [hcase] at hending
        cases hending
        assumption
    -- the closing brace is no doc comment, so all of them stand in the body
    have hdocs : (inner ++ c :: more).takeWhile (fun t => decide (t.kind = .innerDoc)) =
        inner.takeWhile fun t => decide (t.kind = .innerDoc) := by
      rw [List.takeWhile_append]
      split
      · next hall =>
        simp only [List.takeWhile_cons, hc]
        rw [if_neg (by decide), List.append_nil]
        exact ((List.takeWhile_prefix _).eq_of_length hall).symm
      · rfl
    simp [innerDocsAfter, hdocs, Ending.docs]

/-- **A declaration is read as a whole.** -/
theorem scanItem_declaration (last : Lexeme) (h : d.WellFormed) (start : Nat) (more : List Lexeme) :
    scanItem last start (d.modifiers ++ d.keyword :: (d.rest ++ more)) =
      (some { d.item with span := ⟨start, d.ending.last.span.stop⟩ }, more) := by
  have hskip : skipModifiers last ((d.modifiers ++ d.keyword :: (d.rest ++ more)).length + 1)
      (d.modifiers ++ d.keyword :: (d.rest ++ more)) = d.keyword :: (d.rest ++ more) :=
    skipModifiers_modifiers h more (by simp)
  obtain ⟨hname, hheader⟩ := place_declaration h more
  obtain ⟨hbody, hdocs⟩ := body_declaration last h more
  unfold scanItem
  rw [hskip]
  dsimp only
  rw [List.tail_cons, if_neg, keywordAt?_declaration h]
  · dsimp only
    rw [hheader, extent_declaration h, hname]
    dsimp only
    rw [hdocs]
    have hstop : endAt last (d.ending.last :: more) = d.ending.last.span.stop := rfl
    rw [hstop, hbody]
    rfl
  · intro hmacro
    exact kindAt_rest h more (of_decide_eq_true (Bool.and_eq_true_iff.mp hmacro).2)

/-! ## All declarations -/

end Declaration

/-- Attributes are skipped, and the first of them is where the item starts. -/
theorem scanFrom_attributes (last : Lexeme) {attributes : List Lexeme} (h : Attributes attributes)
    (rest : List Lexeme) (pending : Option Nat) {fuel : Nat}
    (hfuel : (attributes ++ rest).length ≤ fuel) :
    ∃ left, rest.length ≤ left ∧ scanFrom last fuel pending (attributes ++ rest) =
      scanFrom last left (pending.or (attributes.head?.map (·.span.start))) rest := by
  induction h generalizing pending fuel with
  | nil => exact ⟨fuel, hfuel, by simp⟩
  | @doc t ts hkind _ ih =>
    obtain ⟨fuel, rfl⟩ : ∃ n, fuel = n + 1 := ⟨fuel - 1, by simp at hfuel; omega⟩
    obtain ⟨left, hleft, hscan⟩ := ih (pending.or (some t.span.start))
      (show (ts ++ rest).length ≤ fuel by simpa using hfuel)
    refine ⟨left, hleft, ?_⟩
    rw [List.cons_append, scanFrom, hkind]
    dsimp only
    rw [hscan, Option.or_assoc]
    rfl
  | @bracketed p o c inner ts hp ho hinner hc _ ih =>
    obtain ⟨fuel, rfl⟩ : ∃ n, fuel = n + 1 := ⟨fuel - 1, by simp at hfuel; omega⟩
    obtain ⟨left, hleft, hscan⟩ := ih (pending.or (some p.span.start))
      (show (ts ++ rest).length ≤ fuel by simp at hfuel ⊢; omega)
    refine ⟨left, hleft, ?_⟩
    have hopen : kindAt (o :: (inner ++ c :: (ts ++ rest))) = some .open := congrArg some ho
    rw [List.cons_append, append_group, scanFrom, hp]
    have hbang : ¬ (some Lexeme.Kind.open = some Lexeme.Kind.bang) := by decide
    simp only [hopen, if_neg hbang, if_true, skipGroup_group ho hinner hc]
    rw [hscan, Option.or_assoc]
    rfl

namespace Declaration

variable {d : Declaration}

/-- A declaration gives its item, and nothing behind it is lost. -/
theorem scanFrom_declaration (last : Lexeme) (h : d.WellFormed) (more : List Lexeme) {fuel : Nat}
    (hfuel : (d.tokens ++ more).length ≤ fuel) :
    ∃ left, more.length ≤ left ∧
      scanFrom last fuel none (d.tokens ++ more) = d.item :: scanFrom last left none more := by
  have htokens : d.tokens ++ more =
      d.attributes ++ (d.modifiers ++ d.keyword :: (d.rest ++ more)) := by simp [tokens]
  rw [htokens] at hfuel ⊢
  obtain ⟨left, hleft, hattributes⟩ := scanFrom_attributes last h.attributes
    (d.modifiers ++ d.keyword :: (d.rest ++ more)) none hfuel
  obtain ⟨left, rfl⟩ : ∃ n, left = n + 1 := ⟨left - 1, by simp at hleft; omega⟩
  refine ⟨left, by simp at hleft; omega, ?_⟩
  have hitem := scanItem_declaration last h
  have hword := kindAt_modifiers h (d.rest ++ more)
  have hfirst : (d.modifiers ++ d.keyword :: (d.rest ++ more)).head? =
      some (d.modifiers.head?.getD d.keyword) := by
    cases d.modifiers <;> rfl
  rw [hattributes]
  cases hts : d.modifiers ++ d.keyword :: (d.rest ++ more) with
  | nil => simp at hts
  | cons t ts =>
    rw [hts] at hword hfirst
    have hkind : t.kind = .word := Option.some.inj hword
    obtain rfl : t = d.modifiers.head?.getD d.keyword := Option.some.inj hfirst
    have hstart : (none.or (d.attributes.head?.map (·.span.start))).getD
        (d.modifiers.head?.getD d.keyword).span.start = d.first.span.start := by
      unfold first
      cases d.attributes <;> rfl
    rw [scanFrom, hkind]
    dsimp only
    rw [hstart, ← hts, hitem]
    rfl

end Declaration

theorem scanFrom_declarations {ds : List Declaration} (h : ∀ d ∈ ds, d.WellFormed) {fuel : Nat}
    (hfuel : (ds.flatMap Declaration.tokens).length ≤ fuel) :
    scanFrom last fuel none (ds.flatMap Declaration.tokens) = ds.map Declaration.item := by
  induction ds generalizing fuel with
  | nil => cases fuel <;> rfl
  | cons d ds ih =>
    rw [List.flatMap_cons] at hfuel ⊢
    obtain ⟨left, hleft, hscan⟩ :=
      Declaration.scanFrom_declaration last (h d List.mem_cons_self) _ hfuel
    have hmore := ih (fun e he => h e (List.mem_cons_of_mem d he)) hleft
    rw [hscan, hmore, List.map_cons]

/-- **Every declaration is found**, in order, and nothing else. -/
theorem scan_of_declarations {source : List Char} {ds : List Declaration}
    (h : ∀ d ∈ ds, d.WellFormed) (hsource : lexemes source = ds.flatMap Declaration.tokens) :
    scan source = ds.map Declaration.item := by
  unfold scan scanLexemes
  rw [hsource]
  cases hlast : (ds.flatMap Declaration.tokens).getLast? with
  | none =>
    -- no tokens, so no declarations: each of them has a keyword
    cases ds with
    | nil => rfl
    | cons d ds => simp [Declaration.tokens] at hlast
  | some last => exact scanFrom_declarations h (Nat.le_refl _)

/-! ## An instance -/

namespace Instance

/-- A token of ASCII characters at a place. -/
def placed (start : Nat) (kind : Lexeme.Kind) (text : String) : Lexeme :=
  ⟨kind, text.toList, ⟨start, start + text.length⟩⟩

def source : List Char :=
  ("/// A.\n#[b] pub(crate) const unsafe fn f<const N: u8 = \x7b 1; 2 \x7d>() \x7b //! C.\n\x7d\n" ++
    "static mut D: u8 = \x7b 1; 2 \x7d;\nimpl<T> E \x7b\x7d\n").toList

/-- A function with everything that may stand in front of its keyword, and with braces and a
semicolon in its angle brackets. -/
def function : Declaration where
  attributes :=
    [placed 0 .outerDoc "/// A.", placed 7 .pound "#", placed 8 .open "[", placed 9 .word "b",
      placed 10 .close "]"]
  visibility :=
    [placed 12 .word "pub", placed 15 .open "(", placed 16 .word "crate", placed 21 .close ")"]
  qualifiers := [placed 23 .word "const", placed 29 .word "unsafe"]
  kind := .function
  keyword := placed 36 .word "fn"
  mutability := none
  name := some (placed 39 .word "f")
  header :=
    [placed 40 .angleOpen "<", placed 41 .word "const", placed 47 .word "N", placed 48 .other ":",
      placed 50 .word "u8", placed 53 .other "=", placed 55 .open "\x7b", placed 57 .literal "1",
    placed 58 .semicolon ";", placed 60 .literal "2", placed 62 .close "\x7d",
      placed 63 .angleClose ">",
    placed 64 .open "(", placed 65 .close ")"]
  ending := .body (placed 67 .open "\x7b") [placed 69 .innerDoc "//! C."] (placed 76 .close "\x7d")

/-- A static that can be changed, with a semicolon in a group. -/
def staticMut : Declaration where
  attributes := []
  visibility := []
  qualifiers := []
  kind := .static
  keyword := placed 78 .word "static"
  mutability := some (placed 85 .word "mut")
  name := some (placed 89 .word "D")
  header :=
    [placed 90 .other ":", placed 92 .word "u8", placed 95 .other "=", placed 97 .open "\x7b",
      placed 99 .literal "1", placed 100 .semicolon ";", placed 102 .literal "2",
      placed 104 .close "\x7d"]
  ending := .semicolon (placed 105 .semicolon ";")

/-- An implementation, which has no name. -/
def impl : Declaration where
  attributes := []
  visibility := []
  qualifiers := []
  kind := .impl
  keyword := placed 107 .word "impl"
  mutability := none
  name := none
  header := [placed 111 .angleOpen "<", placed 112 .word "T", placed 113 .angleClose ">",
    placed 115 .word "E"]
  ending := .body (placed 117 .open "\x7b") [] (placed 118 .close "\x7d")

/-- The inside of the braces. -/
theorem balanced_statement {a b c : Lexeme} (ha : a.kind = .literal) (hb : b.kind = .semicolon)
    (hc : c.kind = .literal) : Balanced [a, b, c] := by
  refine .single ?_ ?_ (.single ?_ ?_ (.single ?_ ?_ .nil)) <;> simp [ha, hb, hc]

theorem function_wellFormed : function.WellFormed where
  attributes :=
    .doc rfl (@Attributes.bracketed _ _ _ [_] _ rfl rfl (.single (by decide) (by decide) .nil)
    rfl .nil)
  visibility := @Visibility.restricted _ _ _ [_] (by decide) rfl rfl
    (.single (by decide) (by decide) .nil) rfl
  qualifiers := ⟨.const (by decide) (.unsafe' (by decide) (by decide) .nil),
    fun h => absurd rfl h⟩
  keyword := ⟨"fn", by decide, by decide⟩
  mutability := by simp [function]
  named := fun _ => ⟨_, rfl, rfl, by decide⟩
  nameless := fun h => absurd h (by decide)
  clause := fun h => absurd h (by decide)
  header := by
    intro _
    refine ⟨.angleOpen rfl ?_, .body rfl rfl (.single (by decide) (by decide) .nil) rfl⟩
    -- five words and signs up to the braces
    iterate 5 refine .single (by decide) (by decide) (by decide) (by decide) (by decide) ?_
    refine @Header.group _ _ _ [_, _, _] _ rfl (by decide) (balanced_statement rfl rfl rfl) rfl ?_
    exact .angleClose rfl (@Header.group _ _ _ [] _ rfl (by decide) .nil rfl .nil)

theorem static_wellFormed : staticMut.WellFormed where
  attributes := .nil
  visibility := .inherited
  qualifiers := ⟨.nil, fun _ => rfl⟩
  keyword := ⟨"static", by decide, by decide⟩
  mutability := by
    intro t ht
    obtain rfl := Option.some.inj ht
    decide
  named := fun _ => ⟨_, rfl, rfl, by decide⟩
  nameless := fun h => absurd h (by decide)
  clause := by
    intro _
    refine ⟨?_, _, rfl, rfl⟩
    iterate 3 refine .single (by decide) (by decide) (by decide) ?_
    exact @Clause.group _ _ [_, _, _] _ rfl (balanced_statement rfl rfl rfl) rfl .nil
  header := fun h => absurd (by decide) h

theorem impl_wellFormed : impl.WellFormed where
  attributes := .nil
  visibility := .inherited
  qualifiers := ⟨.nil, fun _ => rfl⟩
  keyword := ⟨"impl", by decide, by decide⟩
  mutability := by simp [impl]
  named := fun h => absurd (by decide) h
  nameless := fun _ => ⟨rfl, by decide⟩
  clause := fun h => absurd h (by decide)
  header := by
    intro _
    refine ⟨.angleOpen rfl (.single ?_ ?_ ?_ ?_ ?_ (.angleClose rfl (.single ?_ ?_ ?_ ?_ ?_ .nil))),
      .body rfl rfl .nil rfl⟩
    all_goals decide

theorem scan_of_three_declarations :
    (∀ d ∈ [function, staticMut, impl], d.WellFormed) ∧
      lexemes source = [function, staticMut, impl].flatMap Declaration.tokens ∧
      scan source = [⟨.function, some "f", ⟨0, 77⟩, some ⟨67, 77⟩, [⟨69, 75⟩]⟩,
        ⟨.static, some "D", ⟨78, 106⟩, none, []⟩,
          ⟨.impl, none, ⟨107, 119⟩, some ⟨117, 119⟩, []⟩] := by
  have hall : ∀ d ∈ [function, staticMut, impl], d.WellFormed := by
    simp [function_wellFormed, static_wellFormed, impl_wellFormed]
  have hsource : lexemes source = [function, staticMut, impl].flatMap Declaration.tokens := by
    decide +kernel
  exact ⟨hall, hsource, (scan_of_declarations hall hsource).trans (by decide +kernel)⟩

end Instance

end LiveDoc.Item
