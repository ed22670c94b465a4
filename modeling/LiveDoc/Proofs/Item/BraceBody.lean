import LiveDoc.Proofs.Item.Restrip

/-!
# Bodies in braces

The body of an item opens with a brace, unless the text is cut off in the header of the item: a
search that finds neither a brace nor a semicolon ends with the last token of the text, and an
opening bracket there is taken for the start of a body.

* `exists_scanItem` — every item is read at some place of the walk;
* `BraceBehind`, `CutOff` — the two ways in which a header comes to a body;
* `body_opens` — where bodies open, and which declarations can be stripped, for every text.
-/

namespace LiveDoc.Item

variable {last o : Lexeme} {kind : Kind} {ts header : List Lexeme} {source : List Char} {i : Item}

/-! ## The places of items -/

/-- **Every item is read at some place** of the walk. -/
theorem exists_scanItem {pending : Option Nat} (h : i ∈ walk last pending ts) :
    ∃ start place after, place <:+ ts ∧ scanItem last start place = (some i, after) := by
  induction hn : ts.length using Nat.strongRecOn generalizing pending ts with
  | _ n ih =>
    cases ts with
    | nil => cases h
    | cons t rest =>
      rw [walk_cons] at h
      rcases List.mem_append.mp h with hitem | hlater
      · -- only a word is read as an item
        by_cases hword : t.kind = .word
        · rw [step_of_word pending rest hword, Option.mem_toList] at hitem
          exact ⟨_, t :: rest, _, List.suffix_refl _, Prod.ext hitem rfl⟩
        · have hnone : (step last pending t rest).item = none := by
            by_cases hattribute : t.kind = .outerDoc ∨ t.kind = .pound
            · exact item_of_attribute pending rest hattribute
            · rw [not_or] at hattribute
              rw [step_of_other pending rest hattribute.1 hattribute.2 hword]
          rw [hnone] at hitem
          cases hitem
      · have hforward := step_suffix last pending t rest
        have hshorter : (step last pending t rest).place.length < n :=
          hn ▸ length_step_lt last pending t rest
        obtain ⟨start, place, after, hplace, hread⟩ := ih _ hshorter hlater rfl
        exact ⟨start, place, after, (hplace.trans hforward).trans (List.suffix_cons t rest), hread⟩

theorem exists_walk (h : i ∈ scan source) :
    ∃ last, (lexemes source).getLast? = some last ∧ i ∈ walk last none (lexemes source) := by
  unfold scan at h
  cases hlast : (lexemes source).getLast? with
  | none =>
    rw [scanLexemes, hlast] at h
    cases h
  | some last => exact ⟨last, rfl, scanLexemes_eq_walk hlast ▸ h⟩

/-- The tokens behind the name of an item, up to the end of the text. -/
def HeaderOf (source : List Char) (i : Item) (header : List Lexeme) : Prop :=
  ∃ last start place after, (lexemes source).getLast? = some last ∧ place <:+ lexemes source ∧
    scanItem last start place = (some i, after) ∧
    header = behindName i.kind (keywordPlace last place).tail

theorem exists_headerOf (h : i ∈ scan source) : ∃ header, HeaderOf source i header := by
  obtain ⟨last, hlast, hmem⟩ := exists_walk h
  obtain ⟨start, place, after, hplace, hread⟩ := exists_scanItem hmem
  exact ⟨_, last, start, place, after, hlast, hplace, hread, rfl⟩

theorem HeaderOf.suffix (h : HeaderOf source i header) : header <:+ lexemes source := by
  obtain ⟨last, -, place, -, -, hplace, -, rfl⟩ := h
  have hkeyword := (List.tail_suffix _).trans ((keywordPlace_suffix last place).trans hplace)
  exact (behindName_suffix i.kind _).trans hkeyword

/-- The extent of an item is told by what stands behind its name. -/
theorem HeaderOf.exists_body_eq (h : HeaderOf source i header) :
    ∃ last, (lexemes source).getLast? = some last ∧
      i.body = (extent last i.kind header).2.map fun opening =>
        ⟨startAt last opening, endAt last (extent last i.kind header).1⟩ := by
  obtain ⟨last, start, place, after, hlast, -, hread, rfl⟩ := h
  exact ⟨last, hlast, congrArg Item.body (eq_itemOf_of_scanItem hread)⟩

/-! ## Where a body opens -/

/-- A brace stands among these tokens, with nothing open in front of it, and no semicolon stands in
front of it outside of brackets. -/
def BraceBehind (header : List Lexeme) (o : Lexeme) : Prop :=
  ∃ passed back, header = passed ++ o :: back ∧ Passes endsHeader openBehind (0, 0) passed ∧
    passed.foldl openBehind (0, 0) = (0, 0) ∧ o.kind = .open ∧ o.text = ['{']

/-- The text ends in a header: behind the name stands neither a brace nor a semicolon outside of
brackets, and the last token of the text is an opening bracket. -/
def CutOff (source : List Char) (header : List Lexeme) : Prop :=
  Passes endsHeader openBehind (0, 0) header ∧ ∃ o ∈ (lexemes source).getLast?, o.kind = .open

theorem seek_of_braceBehind (h : BraceBehind header o) (last : Lexeme) :
    ∃ back, seek endsHeader openBehind last (0, 0) header = o :: back := by
  obtain ⟨passed, back, rfl, hpassed, hclosed, hopen, htext⟩ := h
  have hends : endsHeader (0, 0) o = true := by simp [endsHeader, hopen, htext]
  exact ⟨back, by rw [seek_of_passes hpassed, hclosed, seek, if_pos hends]⟩

/-- A search for the end of a header that ends with an opening bracket has found a brace, or
nothing. -/
theorem of_seek_open {back : List Lexeme} (ho : o.kind = .open)
    (h : seek endsHeader openBehind last (0, 0) header = o :: back) :
    (BraceBehind header o ∧ o :: back <:+ header) ∨
      (Passes endsHeader openBehind (0, 0) header ∧ o = last ∧ back = []) := by
  rcases seek_cases last (0, 0) header with ⟨hall, hnone⟩ |
    ⟨front, t, rest, hsplit, hfront, hstop, hseek⟩
  · obtain ⟨rfl, rfl⟩ := List.cons.inj (h.symm.trans hnone)
    exact .inr ⟨hall, rfl, rfl⟩
  · obtain ⟨rfl, rfl⟩ := List.cons.inj (h.symm.trans hseek)
    simp only [endsHeader, ho, Bool.and_eq_true, decide_eq_true_eq, reduceCtorEq, decide_false,
      Bool.false_or] at hstop
    obtain ⟨hclosed, -, htext⟩ := hstop
    refine .inl ⟨⟨front, back, hsplit, hfront, Prod.ext hclosed.1 hclosed.2, ho, htext⟩, ?_⟩
    exact ⟨front, hsplit.symm⟩

/-- **A body opens with a brace**, or with the last token of the text. -/
theorem opening_of_extent (hbraces : BracesOpen ts) {opening : List Lexeme}
    (h : (extent last kind ts).2 = some opening) :
    ∃ o back, opening = o :: back ∧ o.kind = .open ∧
      ((o.text = ['{'] ∧ opening <:+ ts) ∨ (o = last ∧ back = [])) := by
  by_cases hkind : kind.endsWithSemicolon = true
  · rw [extent_of_endsWithSemicolon hkind] at h
    cases h
  rw [Bool.not_eq_true] at hkind
  by_cases hmacro : kind = .macroRules
  · subst hmacro
    rw [extent_of_macroRules] at h
    split at h
    · next hbrace =>
      obtain rfl := Option.some.inj h
      obtain ⟨o, back, rfl⟩ : ∃ o back, ts = o :: back := by
        refine List.exists_cons_of_ne_nil ?_
        rintro rfl
        cases hbrace
      exact ⟨o, back, rfl, hbraces o List.mem_cons_self hbrace, .inl ⟨hbrace, List.suffix_refl _⟩⟩
    · cases h
  · rw [extent_of_header hkind hmacro, bodyOrSemicolonFrom_eq_seek] at h
    split at h
    · next hopen =>
      obtain rfl := Option.some.inj h
      have hne : seek endsHeader openBehind last (0, 0) ts ≠ [] := seek_ne_nil last (0, 0) ts
      obtain ⟨o, back, hseek⟩ := List.exists_cons_of_ne_nil hne
      rw [hseek] at hopen ⊢
      have ho : o.kind = .open := Option.some.inj hopen
      refine ⟨o, back, rfl, ho, ?_⟩
      rcases of_seek_open ho hseek with ⟨⟨_, _, _, _, _, _, htext⟩, hsuffix⟩ | ⟨-, hlast⟩
      · exact .inl ⟨htext, hsuffix⟩
      · exact .inr hlast
    · cases h

/-- An item that can have a body has one when a brace stands behind its header, or when the text is
cut off there. -/
theorem HeaderOf.isSome_body_iff (h : HeaderOf source i header)
    (hkind : i.kind.hasStrippableBody = true) :
    i.body.isSome ↔ (∃ o, BraceBehind header o) ∨ CutOff source header := by
  obtain ⟨last, hlast, hbody⟩ := h.exists_body_eq
  obtain ⟨-, hsemicolon, hplain, -⟩ := of_hasStrippableBody hkind
  have hne : seek endsHeader openBehind last (0, 0) header ≠ [] := seek_ne_nil last (0, 0) header
  obtain ⟨o, back, hseek⟩ := List.exists_cons_of_ne_nil hne
  have hsome : i.body.isSome ↔ o.kind = .open := by
    rw [hbody, extent_of_header hsemicolon hplain, bodyOrSemicolonFrom_eq_seek, hseek]
    split
    · next hopen => exact iff_of_true rfl (Option.some.inj hopen)
    · next hopen => exact iff_of_false nofun fun ho => hopen (congrArg some ho)
  rw [hsome]
  constructor
  · intro ho
    rcases of_seek_open ho hseek with ⟨hbrace, -⟩ | ⟨hall, rfl, -⟩
    · exact .inl ⟨o, hbrace⟩
    · exact .inr ⟨hall, o, hlast, ho⟩
  · rintro (⟨o', hbrace⟩ | ⟨hall, o', ho', hopen⟩)
    · obtain ⟨back', hseek'⟩ := seek_of_braceBehind hbrace last
      obtain ⟨rfl, -⟩ := List.cons.inj (hseek.symm.trans hseek')
      obtain ⟨-, -, -, -, -, hopen, -⟩ := hbrace
      exact hopen
    · obtain rfl : last = o' := Option.some.inj (hlast.symm.trans ho')
      have hnone := seek_of_passes hall last []
      rw [List.append_nil, hseek, seek] at hnone
      rwa [(List.cons.inj hnone).1]

/-- Where the body of an item opens in the text. -/
theorem exists_opening_of_mem_scan (h : i ∈ scan source) {b : Text.Span} (hb : b ∈ i.body) :
    ∃ front o back, lexemes source = front ++ o :: back ∧ b.start = o.span.start ∧ o.kind = .open ∧
      (o.text = ['{'] ∨ back = []) := by
  obtain ⟨header, hheader⟩ := exists_headerOf h
  obtain ⟨last, hlast, hbody⟩ := hheader.exists_body_eq
  have hsuffix := hheader.suffix
  rw [hbody] at hb
  obtain ⟨opening, hopening, rfl⟩ := Option.map_eq_some_iff.mp hb
  have hbraces : BracesOpen header := fun t ht => bracesOpen_lexemes source t (hsuffix.subset ht)
  obtain ⟨o, back, rfl, ho, hplace⟩ := opening_of_extent hbraces hopening
  rcases hplace with ⟨htext, hbehind⟩ | ⟨rfl, rfl⟩
  · obtain ⟨front, hfront⟩ := hbehind.trans hsuffix
    exact ⟨front, o, back, hfront.symm, rfl, ho, .inl htext⟩
  · obtain ⟨front, hfront⟩ := List.getLast?_eq_some_iff.mp hlast
    exact ⟨front, o, [], hfront, rfl, ho, .inr rfl⟩

theorem exists_strip_iff {more : List Item} (hscan : scan source = i :: more)
    (hkind : i.kind.hasStrippableBody = true) :
    (∃ text, stripBody source = .ok text) ↔ i.body.isSome := by
  constructor
  · rintro ⟨text, htext⟩
    obtain ⟨j, others, b, hscan', -, hb, -⟩ := of_stripBody htext
    obtain ⟨rfl, -⟩ := List.cons.inj (hscan.symm.trans hscan')
    exact Option.isSome_of_eq_some hb
  · intro hbody
    obtain ⟨b, hb⟩ := Option.isSome_iff_exists.mp hbody
    exact ⟨_, stripBody_of_body hscan hkind hb⟩

/-- **A body is in braces, unless the text is cut off in a header.** The source at the start of a
body is a brace, or it is an opening bracket that is the last token of the text. A declaration is
stripped when the first item is of a kind with such a body and a brace stands behind its header, or
the text is cut off there; it is refused in every other case. -/
theorem body_opens (source : List Char) :
    (∀ i ∈ scan source, ∀ b ∈ i.body, ∃ front o back, lexemes source = front ++ o :: back ∧
      b.start = o.span.start ∧ Text.slice source o.span = some o.text ∧
      (o.text = ['{'] ∨ (back = [] ∧ (o.text = ['('] ∨ o.text = ['['])))) ∧
    (∀ e, stripBody source = .error e →
      e = .unsupportedDeclaration (String.ofList (firstLine source))) ∧
    ((∃ text, stripBody source = .ok text) →
      ∃ i ∈ (scan source).head?, i.kind.hasStrippableBody = true) ∧
    ∀ i ∈ (scan source).head?, i.kind.hasStrippableBody = true →
      (∃ header, HeaderOf source i header) ∧
      ∀ header, HeaderOf source i header → ((∃ text, stripBody source = .ok text) ↔
        (∃ o, BraceBehind header o) ∨ CutOff source header) := by
  refine ⟨fun i hi b hb => ?_, fun e he => ?_, ?_, fun i hi hkind => ?_⟩
  · obtain ⟨front, o, back, hsource, hstart, hopen, htext⟩ := exists_opening_of_mem_scan hi hb
    have hmem : o ∈ lexemes source := by simp [hsource]
    refine ⟨front, o, back, hsource, hstart, slice_of_mem_lexemes hmem, ?_⟩
    have hbracket := mem_openings hmem hopen
    simp only [openings, List.mem_cons, List.not_mem_nil, or_false] at hbracket
    tauto
  · unfold stripBody at he
    split at he
    · cases he
    · exact (Except.error.inj he).symm
  · rintro ⟨text, htext⟩
    obtain ⟨i, more, b, hscan, hkind, -, -⟩ := of_stripBody htext
    exact ⟨i, by rw [hscan]; rfl, hkind⟩
  · obtain ⟨more, hscan⟩ := List.head?_eq_some_iff.mp hi
    have hmem : i ∈ scan source := by simp [hscan]
    refine ⟨exists_headerOf hmem, fun header hheader => ?_⟩
    rw [exists_strip_iff hscan hkind, hheader.isSome_body_iff hkind]

/-- **A text that ends with the bracket of a parameter list** is taken for a function with a body,
which opens with that bracket. -/
theorem body_opens_cutOff :
    scan "fn f(".toList = [⟨.function, some "f", ⟨0, 5⟩, some ⟨4, 5⟩, []⟩] ∧
      Text.slice "fn f(".toList ⟨4, 5⟩ = some ['('] ∧
      stripBody "fn f(".toList = .ok "fn f \x7b\n    ...\n\x7d\n".toList := by
  decide +kernel

end LiveDoc.Item
