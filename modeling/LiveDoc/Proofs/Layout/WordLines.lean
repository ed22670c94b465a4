import LiveDoc.Proofs.Layout.Greedy
import LiveDoc.Proofs.Layout.Relaid

/-!
# Lines of words

A paragraph is laid out by its words. A line behind the first one starts with a word that
`startsBlock` lets through, and this is enough for it to be text (`startsText_of_word`), unless the
word starts with one of the characters that `startsBlock` does not look for (`unguarded`).
-/

namespace LiveDoc.Layout

open Markdown
open Text (Span IsEnding isUnbroken isBlank join)

instance (c : Char) : Decidable (isUnbroken c) := inferInstanceAs (Decidable (_ ∧ _))

/-- The characters of a text are looked at one by one, and not all the characters that there are. -/
instance (text : List Char) : Decidable (∀ c ∈ text, isUnbroken c) := List.decidableBAll _ text

/-! ## Words on lines -/

/-- The lines that words fill. Each starts with a word, and behind the first one with a word that
may start it. -/
theorem exists_fill (width : Nat) {words : List (List Char)} (hne : words ≠ []) :
    ∃ first rest, fill width words = first :: rest ∧
      (∃ w more, first = w :: more ∧ ∀ x ∈ first, x ∈ words) ∧
      ∀ l ∈ rest, ∃ w more, l = w :: more ∧ startsBlock w = false ∧ ∀ x ∈ l, x ∈ words := by
  have hgreedy := greedy_fill width words
  have hmem : ∀ l ∈ fill width words, ∀ x ∈ l, x ∈ words :=
    fun l hl x hx => hgreedy.flatten ▸ List.mem_flatten.mpr ⟨l, hl, hx⟩
  obtain ⟨w, others, rfl⟩ := List.exists_cons_of_ne_nil hne
  obtain ⟨more, hhead⟩ := head?_fillFrom width w.length [w] others
  obtain ⟨rest, hfill : fill width (w :: others) = _⟩ := List.head?_eq_some_iff.mp hhead
  rw [hfill] at hgreedy hmem
  obtain ⟨hfirst, hrest⟩ := List.forall_mem_cons.mp hmem
  refine ⟨_, rest, hfill, ⟨w, more, rfl, hfirst⟩, fun l hl => ?_⟩
  obtain ⟨v, more', rfl, hv⟩ := hgreedy.startsBlock_eq_false hl
  exact ⟨v, more', rfl, hv, hrest _ hl⟩

/-- The text of words on a line: the first word, and nothing or a space behind it. -/
theorem exists_join_cons (w : List Char) (more : List (List Char)) :
    ∃ behind, join [' '] (w :: more) = w ++ behind ∧ (behind = [] ∨ behind.head? = some ' ') := by
  cases more with
  | nil => exact ⟨[], by simp [join], Or.inl rfl⟩
  | cons v more => exact ⟨' ' :: join [' '] (v :: more), by simp [join], Or.inr rfl⟩

theorem isUnbroken_join {words : List (List Char)} (h : ∀ w ∈ words, ∀ c ∈ w, isUnbroken c) :
    ∀ c ∈ join [' '] words, isUnbroken c := by
  induction words with
  | nil => exact fun c hc => absurd hc List.not_mem_nil
  | cons w more ih =>
    cases more with
    | nil => exact h w List.mem_cons_self
    | cons v rest =>
      intro c hc
      rw [join, List.append_assoc, List.mem_append, List.mem_append] at hc
      rcases hc with hc | hc | hc
      · exact h w List.mem_cons_self c hc
      · rw [List.mem_singleton.mp hc]
        exact ⟨by decide, by decide⟩
      · exact ih (fun x hx => h x (List.mem_cons_of_mem w hx)) c hc

/-- Texts that are joined by line ends are the lines of what comes out. -/
theorem rawLines_join {ending : List Char} (he : IsEnding ending) {texts : List (List Char)}
    (h : ∀ t ∈ texts, t ≠ [] ∧ ∀ c ∈ t, isUnbroken c) :
    (rawLines (join ending texts)).map RawLine.text = texts ∧
      ∀ r ∈ (rawLines (join ending texts)).getLast?, r.ending = [] := by
  induction texts with
  | nil => exact ⟨by rw [join, rawLines_nil]; rfl, by rw [join, rawLines_nil]; simp⟩
  | cons t more ih =>
    obtain ⟨hne, hunbroken⟩ := h t List.mem_cons_self
    cases more with
    | nil =>
      rw [join, rawLines_unbroken hunbroken hne]
      exact ⟨rfl, by simp⟩
    | cons s rest =>
      obtain ⟨htexts, hlast⟩ := ih fun x hx => h x (List.mem_cons_of_mem t hx)
      rw [join, rawLines_append hunbroken (Or.inl he)]
      refine ⟨by rw [List.map_cons, htexts], ?_⟩
      cases hlines : rawLines (join ending (s :: rest)) with
      | nil => rw [hlines] at htexts; cases htexts
      | cons r rs =>
        rw [hlines] at hlast
        rw [List.getLast?_cons_cons]
        exact hlast

/-! ## Words at the start of a line -/

/-- What a word may start with that `startsBlock` lets through, while the line may not be text. A
word starts with a space or a tab only inside code. -/
def unguarded : List Char := ['<', '_', '[', ':', ' ', '\t']

/-- Behind the first line of a text, what starts with an unguarded character is text all the
same. -/
def UnguardedIsText (content : List Char) : Prop :=
  ∀ r ∈ (rawLines content).tail, r.text.head?.any unguarded.contains = true →
    StartsText true (glyphsAt 0 0 r.text) ∧ Table.drawsRule (glyphsAt 0 0 r.text) = false

instance (content : List Char) : Decidable (UnguardedIsText content) :=
  inferInstanceAs (Decidable (∀ r ∈ (rawLines content).tail, _))

/-- The first glyph behind digits. -/
theorem head?_dropWhile_glyphsAt (place column : Nat) (text : List Char) :
    ((glyphsAt place column text).dropWhile (·.char.isDigit)).head?.map (·.char) =
      (text.dropWhile Char.isDigit).head? := by
  induction text generalizing place column with
  | nil => rfl
  | cons c rest ih =>
    cases hdigit : c.isDigit with
    | true =>
      have htab : c ≠ '\t' := by
        rintro rfl
        cases hdigit
      rw [glyphsAt, if_neg htab, List.dropWhile_cons_of_pos (by exact hdigit), ih,
        List.dropWhile_cons_of_pos hdigit]
    | false =>
      rw [List.dropWhile_cons_of_neg (by simp [hdigit])]
      have hhead := head?_glyphsAt place column (c :: rest)
      cases hgs : glyphsAt place column (c :: rest) with
      | nil => rw [hgs] at hhead; cases hhead
      | cons g gs =>
        rw [hgs] at hhead
        obtain hg : g.char = c := Option.some.inj hhead
        rw [List.dropWhile_cons_of_neg (by simp [hg, hdigit])]
        exact hhead

/-- A word that does not look like the number of an item is none in front of a space either. -/
theorem not_numbers {w behind : List Char} {c d : Char} {cs : List Char} (hw : w = c :: cs)
    (hstart : startsBlock w = false) (hdigit : c.isDigit = true)
    (hbehind : behind = [] ∨ behind.head? = some ' ')
    (hd : ((w ++ behind).dropWhile Char.isDigit).head? = some d) : d ≠ '.' ∧ d ≠ ')' := by
  subst hw
  rw [startsBlock, Bool.or_eq_false_iff, hdigit, Bool.true_and] at hstart
  have hnumber := hstart.2
  rw [List.dropWhile_append] at hd
  cases hrest : (c :: cs).dropWhile Char.isDigit with
  | nil =>
    rw [hrest] at hd
    rcases hbehind with rfl | hbehind
    · cases hd
    · obtain ⟨more, rfl⟩ := List.head?_eq_some_iff.mp hbehind
      obtain rfl : ' ' = d := Option.some.inj hd
      exact ⟨by decide, by decide⟩
  | cons e more =>
    rw [hrest] at hd hnumber
    obtain rfl : e = d := Option.some.inj hd
    simpa using hnumber

/-- **What `startsBlock` lets through is text**, unless it starts with an unguarded character. -/
theorem startsText_of_word {w behind : List Char} {c : Char} (hhead : w.head? = some c)
    (hstart : startsBlock w = false) (hguarded : c ∉ unguarded)
    (hbehind : behind = [] ∨ behind.head? = some ' ') (follows : Bool) :
    StartsText follows (glyphsAt 0 0 (w ++ behind)) ∧
      Table.drawsRule (glyphsAt 0 0 (w ++ behind)) = false := by
  obtain ⟨cs, rfl⟩ := List.head?_eq_some_iff.mp hhead
  simp only [unguarded, List.mem_cons, List.not_mem_nil, or_false, not_or] at hguarded
  obtain ⟨hlt, hunder, hbracket, hcolon, hspace, htab⟩ := hguarded
  have hmarks := hstart
  rw [startsBlock, Bool.or_eq_false_iff] at hmarks
  replace hmarks := hmarks.1
  simp only [List.contains_cons, List.contains_nil, Bool.or_false, Bool.or_eq_false_iff,
    beq_eq_false_iff_ne] at hmarks
  obtain ⟨hhash, hgt, hdash, hplus, hstar, hequals, hbar, htick, htilde⟩ := hmarks
  have hdrop := head?_dropWhile_glyphsAt 0 0 (c :: cs ++ behind)
  obtain ⟨gs, hgs⟩ : ∃ gs, glyphsAt 0 0 (c :: cs ++ behind) =
      (⟨c, [c], 0, 0 + c.utf8Size, 0, none, none⟩ : Glyph) :: gs := by
    rw [List.cons_append, glyphsAt, if_neg htab]
    exact ⟨_, rfl⟩
  rw [hgs] at hdrop ⊢
  generalize hg : (⟨c, [c], 0, 0 + c.utf8Size, 0, none, none⟩ : Glyph) = g at *
  have hc : g.char = c := by rw [← hg]
  have hnotSpace : g.isSpace = false := by simp [Glyph.isSpace, hc, hspace, htab]
  have hcut : ∀ n, Glyph.cutSpaces n (g :: gs) = ([], g :: gs) := by
    intro n
    cases n with
    | zero => rfl
    | succ n => simp [Glyph.cutSpaces, hnotSpace]
  have hitem : ∀ interrupting, Container.itemMarker? interrupting (g :: gs) = none := by
    intro interrupting
    rw [Container.itemMarker?]
    simp only [hc, hplus, hstar, hdash, if_false, decide_false, Bool.or_self, Bool.false_eq_true]
    cases hrest : (g :: gs).dropWhile (·.char.isDigit) with
    | nil => rfl
    | cons d rest =>
      rw [hrest] at hdrop
      dsimp only
      rw [if_neg]
      cases hdigit : c.isDigit with
      | true =>
        have hd := not_numbers rfl hstart hdigit hbehind hdrop.symm
        simp [hd]
      | false => simp [hc, hdigit]
  have hcontainer : ∀ interrupting, Container.open? interrupting (g :: gs) = none := by
    intro interrupting
    have hquote : Container.takeQuote? (g :: gs) = none := by
      simp [Container.takeQuote?, hcut, hc, hgt]
    have hopenItem : Container.openItem? interrupting (g :: gs) = none := by
      simp [Container.openItem?, hcut, hitem]
    have hfootnote : Container.openFootnote? (g :: gs) = none := by
      rw [Container.openFootnote?, hcut]
      cases gs with
      | nil => rfl
      | cons k more => simp [hc, hbracket]
    simp [Container.open?, hquote, hopenItem, hfootnote]
  refine ⟨⟨by simp [hnotSpace], fun i _ => hcontainer i, fun i _ => ?_, ?_, ?_, ?_, ?_⟩, ?_⟩
  · simp [Html.Block.open?, hc, hlt]
  · simp [FenceOpening.read?, hcut, hc, htick, htilde]
  · simp [Heading.text?, hcut, hc, hhash]
  · simp [isUnderline, hcut, hc, hequals, hdash]
  · simp [isThematicBreak, hcut, hc, hstar, hdash, hunder]
  · unfold Table.drawsRule
    dsimp only
    rw [hcut]
    cases hrules : Table.rulesFrom ((g :: gs).length + 1) false 0 (g :: gs) with
    | none => rfl
    | some found =>
      obtain ⟨drawn, cells⟩ := found
      cases drawn with
      | false => rfl
      | true =>
        obtain ⟨k, more, hk, hchar, -⟩ := Table.exists_of_rulesFrom hrules
        obtain ⟨rfl, -⟩ := List.cons.inj hk
        rw [hc] at hchar
        simp [hbar, hcolon, hdash] at hchar

/-! ## The words of a text -/

/-- Behind the start of a word there is a word that starts so. -/
theorem wordsFrom_of_ne_nil (kept : List Span) (place : Nat) (word : List Char) (hne : word ≠ [])
    (text : List Char) : ∃ w more, wordsFrom kept place word text = w :: more ∧
    word.reverse <+: w := by
  induction text generalizing place word with
  | nil =>
    rw [wordsFrom, if_neg (by simpa using hne)]
    exact ⟨_, _, rfl, List.prefix_rfl⟩
  | cons c rest ih =>
    rw [wordsFrom]
    split
    · rw [if_neg (by simpa using hne)]
      exact ⟨_, _, rfl, List.prefix_rfl⟩
    · obtain ⟨w, more, heq, hprefix⟩ := ih (place + c.utf8Size) (c :: word) (by simp)
      rw [List.reverse_cons] at hprefix
      exact ⟨w, more, heq, (List.prefix_append _ _).trans hprefix⟩

theorem ne_nil_of_mem_wordsFrom {kept : List Span} {place : Nat} {word text w : List Char}
    (h : w ∈ wordsFrom kept place word text) : w ≠ [] := by
  induction text generalizing place word with
  | nil =>
    rw [wordsFrom] at h
    split at h
    · cases h
    · next hne =>
      rw [List.mem_singleton.mp h]
      simpa using hne
  | cons c rest ih =>
    rw [wordsFrom] at h
    split at h
    · split at h
      · exact ih h
      · next hne =>
        rcases List.mem_cons.mp h with rfl | h
        · simpa using hne
        · exact ih h
    · exact ih h

/-- The first word of a text that does not start with a blank. -/
theorem exists_words_of_head? (kept : List Span) (place : Nat) {text : List Char} {c : Char}
    (hhead : text.head? = some c) (hblank : isBlank c = false) :
    ∃ w more, words kept place text = w :: more ∧ w.head? = some c := by
  obtain ⟨rest, rfl⟩ := List.head?_eq_some_iff.mp hhead
  have hsplits : splits kept place c = false := by simp [splits, hblank]
  rw [words, wordsFrom, hsplits]
  obtain ⟨w, more, heq, t, rfl⟩ :=
    wordsFrom_of_ne_nil kept (place + c.utf8Size) [c] (by simp) rest
  exact ⟨_, more, heq, rfl⟩

theorem head?_join {sep text : List Char} {c : Char} (h : text.head? = some c)
    (more : List (List Char)) : (join sep (text :: more)).head? = some c := by
  obtain ⟨rest, rfl⟩ := List.head?_eq_some_iff.mp h
  cases more <;> rfl

/-- The new text of a paragraph starts as the old one does, behind blanks. -/
theorem head?_formatted {options : Options} {ending old content : List Char} {start : Nat}
    {t : Tree} (h : formatted? options ending old start t = some content) {c : Char}
    (hhead : old.head? = some c) (hblank : isBlank c = false) : content.head? = some c := by
  have hwrap : ∀ kept width, (wrap kept width ending old).head? = some c := by
    intro kept width
    obtain ⟨w, more, hwords, hw⟩ := exists_words_of_head? kept 0 hhead hblank
    obtain ⟨others, hfirst⟩ := head?_fillFrom width w.length [w] more
    obtain ⟨lines, hfill⟩ := List.head?_eq_some_iff.mp hfirst
    rw [wrap, hwords, fill, hfill, List.map_cons]
    exact head?_join (head?_join hw others) _
  have hnormalize : ∀ kept, (normalize kept ending old).head? = some c := by
    intro kept
    obtain ⟨rest, rfl⟩ := List.head?_eq_some_iff.mp hhead
    have hne : c ≠ '\n' := by
      rintro rfl
      cases hblank
    obtain ⟨piece, pieces, hsplit, hpiece⟩ : ∃ piece pieces,
        Text.split '\n' (c :: rest) = piece :: pieces ∧ piece.head? = some c := by
      rw [Text.split, if_neg hne]
      split
      · exact ⟨_, _, rfl, rfl⟩
      · exact ⟨_, _, rfl, rfl⟩
    obtain ⟨w, more, hwords, hw⟩ := exists_words_of_head? kept 0 hpiece hblank
    rw [normalize, hsplit, normalizeLines]
    refine head?_join ?_ _
    rw [normalizeLine, hwords]
    have hline := @head?_join [' '] w c hw more
    split
    · rw [List.head?_append, hline]
      rfl
    · exact hline
  unfold formatted? at h
  dsimp only at h
  split at h
  · split at h
    · exact Option.some.inj h ▸ hwrap _ _
    · split at h
      · exact Option.some.inj h ▸ hnormalize _
      · cases h
  · split at h
    · exact Option.some.inj h ▸ hnormalize _
    · cases h

/-! ## Wrapped paragraphs -/

theorem isEnding_lineEnding (last : Option Char) (s : List Char) :
    IsEnding (lineEnding last s) := by
  induction s generalizing last with
  | nil => exact Or.inl rfl
  | cons c rest ih =>
    rw [lineEnding]
    split
    · split
      · exact Or.inr rfl
      · exact Or.inl rfl
    · exact ih _

/-- The text of a line of words that do not break. -/
theorem join_isLine {kept : List Span} {old : List Char} {l : List (List Char)} (hne : l ≠ [])
    (hin : ∀ x ∈ l, x ∈ words kept 0 old) (hwords : ∀ w ∈ words kept 0 old, ∀ c ∈ w, isUnbroken c) :
    join [' '] l ≠ [] ∧ ∀ c ∈ join [' '] l, isUnbroken c := by
  refine ⟨?_, isUnbroken_join fun x hx => hwords x (hin x hx)⟩
  obtain ⟨w, more, rfl⟩ := List.exists_cons_of_ne_nil hne
  obtain ⟨behind, hjoin, -⟩ := exists_join_cons w more
  rw [hjoin]
  simp [ne_nil_of_mem_wordsFrom (hin w List.mem_cons_self)]

/-- **The lines of a wrapped paragraph are text**, when those are that start with an unguarded
character, and the first line starts a paragraph. -/
theorem staysText_wrap {kept : List Span} {width : Nat} {ending old : List Char}
    (he : IsEnding ending) (hstart : StartsParagraph old (wrap kept width ending old))
    (hwords : ∀ w ∈ words kept 0 old, ∀ c ∈ w, isUnbroken c)
    (hguard : UnguardedIsText (wrap kept width ending old)) :
    StaysText old (wrap kept width ending old) := by
  have hne : words kept 0 old ≠ [] := by
    intro hnil
    obtain ⟨r, hr, -⟩ := hstart.first
    simp [wrap, hnil, fill, join, rawLines_nil] at hr
  obtain ⟨first, rest, hfill, ⟨w₁, more₁, rfl, hfirst⟩, hrest⟩ := exists_fill width hne
  have htexts : ∀ text ∈ (fill width (words kept 0 old)).map (join [' ']),
      text ≠ [] ∧ ∀ c ∈ text, isUnbroken c := by
    intro text htext
    obtain ⟨l, hl, rfl⟩ := List.mem_map.mp htext
    rw [hfill] at hl
    rcases List.mem_cons.mp hl with rfl | hl
    · exact join_isLine (List.cons_ne_nil _ _) hfirst hwords
    · obtain ⟨w, more, rfl, -, hin⟩ := hrest l hl
      exact join_isLine (List.cons_ne_nil _ _) hin hwords
  obtain ⟨hraw, hlast⟩ := rawLines_join he htexts
  refine ⟨hstart, fun r hr => ?_, hlast⟩
  -- the words of this line, of which the first was let through
  obtain ⟨l, hl, htext⟩ : ∃ l ∈ rest, join [' '] l = r.text := by
    have hmem : r.text ∈ ((rawLines (wrap kept width ending old)).map RawLine.text).tail := by
      rw [← List.map_tail]
      exact List.mem_map_of_mem hr
    rw [wrap, hraw, hfill, List.map_cons, List.tail_cons] at hmem
    exact List.mem_map.mp hmem
  obtain ⟨w, more, rfl, hw, hin⟩ := hrest l hl
  obtain ⟨behind, hjoin, hbehind⟩ := exists_join_cons w more
  obtain ⟨c, cs, rfl⟩ :=
    List.exists_cons_of_ne_nil (ne_nil_of_mem_wordsFrom (hin w List.mem_cons_self))
  by_cases hc : c ∈ unguarded
  · refine hguard r hr ?_
    rw [← htext, hjoin]
    simpa using hc
  · rw [← htext, hjoin]
    exact startsText_of_word rfl hw hc hbehind true

end LiveDoc.Layout
