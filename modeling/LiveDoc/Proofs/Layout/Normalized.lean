import LiveDoc.Proofs.Layout.FenceShape
import LiveDoc.Proofs.Layout.WordLines

/-!
# Lines with single spaces

A paragraph without code is normalized line by line. Everything about the words of a line follows
from one equation: a blank cuts them (`words_append_blank`).

* `Tidied` — how a line is written: its words with single spaces between them, and two spaces behind
  them when the line broke hard (`BreaksHard`);
* `tidied_normalize` — each line of a paragraph is written so, and to write it once more changes
  nothing.
-/

namespace LiveDoc.Layout

open Text (IsEnding isUnbroken isBlank isBlankText join split dropFinal byteLength
  split_piece split_of_not_mem)

variable {text line new ending : List Char}

/-! ## Words between blanks -/

/-- Where no span is kept, words are what stands between blanks. -/
theorem wordsFrom_nil (place : Nat) (word text : List Char) :
    wordsFrom [] place word text = Text.wordsFrom word text := by
  induction text generalizing place word with
  | nil => rfl
  | cons c rest ih => simp [wordsFrom, Text.wordsFrom, splits, ih]

theorem words_nil (place : Nat) (text : List Char) : words [] place text = Text.words text :=
  wordsFrom_nil place [] text

theorem wordsFrom_append_blank {b : Char} (hb : isBlank b = true) (word text rest : List Char) :
    Text.wordsFrom word (text ++ b :: rest) = Text.wordsFrom word text ++ Text.words rest := by
  induction text generalizing word with
  | nil => by_cases hw : word.isEmpty <;> simp [Text.wordsFrom, Text.words, hb, hw]
  | cons c more ih =>
    rw [List.cons_append, Text.wordsFrom, Text.wordsFrom, ih, ih]
    split
    · split <;> rfl
    · rfl

/-- **A blank cuts the words of a text.** -/
theorem words_append_blank {b : Char} (hb : isBlank b = true) (text rest : List Char) :
    Text.words (text ++ b :: rest) = Text.words text ++ Text.words rest :=
  wordsFrom_append_blank hb [] text rest

/-- Blanks behind a text belong to no word. -/
theorem words_append_blanks {blanks : List Char} (h : ∀ b ∈ blanks, isBlank b = true) :
    Text.words (text ++ blanks) = Text.words text := by
  induction blanks generalizing text with
  | nil => rw [List.append_nil]
  | cons b more ih =>
    obtain ⟨hb, hmore⟩ := List.forall_mem_cons.mp h
    have hnil : Text.words ([] ++ more) = Text.words [] := ih hmore
    rw [words_append_blank hb]
    exact (congrArg (Text.words text ++ ·) hnil).trans (List.append_nil _)

theorem wordsFrom_of_not_blank (word : List Char) (h : ∀ c ∈ text, isBlank c = false) :
    Text.wordsFrom word text = Text.wordsFrom (text.reverse ++ word) [] := by
  induction text generalizing word with
  | nil => rfl
  | cons c rest ih =>
    obtain ⟨hc, hrest⟩ := List.forall_mem_cons.mp h
    rw [Text.wordsFrom.eq_2, hc, if_neg (by decide), ih _ hrest, List.reverse_cons,
      List.append_assoc, List.singleton_append]

/-- A text without blanks is one word. -/
theorem words_of_not_blank (hne : text ≠ []) (h : ∀ c ∈ text, isBlank c = false) :
    Text.words text = [text] := by
  rw [Text.words, wordsFrom_of_not_blank [] h, Text.wordsFrom, if_neg (by simpa using hne)]
  simp

theorem not_blank_of_mem_wordsFrom {word w : List Char} (hword : ∀ c ∈ word, isBlank c = false)
    (h : w ∈ Text.wordsFrom word text) : w ≠ [] ∧ ∀ c ∈ w, isBlank c = false := by
  induction text generalizing word with
  | nil =>
    rw [Text.wordsFrom] at h
    split at h
    · cases h
    · next hne =>
      obtain rfl := List.mem_singleton.mp h
      exact ⟨by simpa using hne, fun c hc => hword c (List.mem_reverse.mp hc)⟩
  | cons c rest ih =>
    rw [Text.wordsFrom] at h
    split at h
    · split at h
      · exact ih (by simp) h
      · next hne =>
        rcases List.mem_cons.mp h with rfl | h
        · exact ⟨by simpa using hne, fun c hc => hword c (List.mem_reverse.mp hc)⟩
        · exact ih (by simp) h
    · next hc => exact ih (List.forall_mem_cons.mpr ⟨by simpa using hc, hword⟩) h

/-- A word is no empty text and has no blanks. -/
theorem not_blank_of_mem_words {w : List Char} (h : w ∈ Text.words text) :
    w ≠ [] ∧ ∀ c ∈ w, isBlank c = false :=
  not_blank_of_mem_wordsFrom (by simp) h

/-- Words are read back from a line of them. -/
theorem words_join {ws : List (List Char)} (h : ∀ w ∈ ws, w ≠ [] ∧ ∀ c ∈ w, isBlank c = false) :
    Text.words (join [' '] ws) = ws := by
  induction ws with
  | nil => rfl
  | cons w more ih =>
    obtain ⟨⟨hne, hw⟩, hmore⟩ := List.forall_mem_cons.mp h
    cases more with
    | nil => exact words_of_not_blank hne hw
    | cons v rest =>
      rw [join, List.append_assoc, List.singleton_append, words_append_blank (by decide),
        words_of_not_blank hne hw, ih hmore, List.singleton_append]

/-- The words of a text hold all its characters but the blanks. -/
theorem flatten_wordsFrom (word text : List Char) :
    (Text.wordsFrom word text).flatten = word.reverse ++ text.filter (!isBlank ·) := by
  induction text generalizing word with
  | nil => cases word <;> simp [Text.wordsFrom]
  | cons c rest ih =>
    rw [Text.wordsFrom]
    split
    · next hc => cases word <;> simp [ih, hc]
    · next hc => simp [ih, hc]

/-- A text has no words when it holds blanks alone. -/
theorem words_eq_nil_iff : Text.words text = [] ↔ isBlankText text = true := by
  rw [isBlankText, List.all_eq_true]
  constructor
  · intro h c hc
    have hflat : (Text.words text).flatten = text.filter (!isBlank ·) := flatten_wordsFrom [] text
    rw [h] at hflat
    simpa using List.filter_eq_nil_iff.mp hflat.symm c hc
  · intro h
    have hnil : Text.words ([] ++ text) = Text.words [] := words_append_blanks h
    exact hnil

theorem join_eq_nil_iff {ws : List (List Char)} (h : ∀ w ∈ ws, w ≠ []) :
    join [' '] ws = [] ↔ ws = [] := by
  cases ws with
  | nil => simp [join]
  | cons w more =>
    obtain ⟨behind, hjoin, -⟩ := exists_join_cons w more
    simp [hjoin, h w List.mem_cons_self]

/-- The last character of a line of words is the last one of a word. -/
theorem getLast?_join {ws : List (List Char)} (h : ∀ w ∈ ws, w ≠ [] ∧ ∀ c ∈ w, isBlank c = false) :
    ∀ c ∈ (join [' '] ws).getLast?, isBlank c = false := by
  induction ws with
  | nil => simp [join]
  | cons w more ih =>
    obtain ⟨⟨hne, hw⟩, hmore⟩ := List.forall_mem_cons.mp h
    cases more with
    | nil => exact fun c hc => hw c (List.mem_of_getLast? hc)
    | cons v rest =>
      have hrest : join [' '] (v :: rest) ≠ [] := by
        simp [join_eq_nil_iff fun x hx => (hmore x hx).1]
      rw [join, List.getLast?_append_of_ne_nil _ hrest]
      exact ih hmore

/-- Behind a text that does not end with `c`, there are no more of `c` at the end than were put
there. -/
theorem replicate_suffix_iff {c : Char} (h : text.getLast? ≠ some c) (n k : Nat) :
    List.replicate n c <:+ text ++ List.replicate k c ↔ n ≤ k := by
  rw [← List.reverse_prefix, List.reverse_append, List.reverse_replicate, List.reverse_replicate]
  induction k generalizing n with
  | zero =>
    cases n with
    | zero => simp
    | succ n =>
      refine iff_of_false ?_ (by omega)
      rintro ⟨more, hmore⟩
      rw [List.replicate_zero, List.nil_append] at hmore
      apply h
      rw [← List.head?_reverse, ← hmore]
      rfl
  | succ k ih =>
    cases n with
    | zero => simp
    | succ n =>
      rw [List.replicate_succ, List.replicate_succ, List.cons_append, List.cons_prefix_cons, ih,
        Nat.add_le_add_iff_right, and_iff_right rfl]

/-! ## Lines -/

/-- Whether a line breaks hard: it has text and ends with two spaces. A carriage return at its end
belongs to the line end. -/
def BreaksHard (line : List Char) : Prop :=
  isBlankText line = false ∧ [' ', ' '] <:+ dropFinal '\r' line

instance (line : List Char) : Decidable (BreaksHard line) := inferInstanceAs (Decidable (_ ∧ _))

/-- How a line is written with single spaces: its words in order, a space between neighbours, and
exactly two spaces behind them when the line broke hard. -/
structure Tidied (line new : List Char) : Prop where
  eq_join : new = join [' '] (Text.words line) ++ if BreaksHard line then [' ', ' '] else []
  words_eq : Text.words new = Text.words line
  trailing_iff : [' '] <:+ new ↔ BreaksHard line
  at_most_two : ¬ [' ', ' ', ' '] <:+ new
  breaks_iff : BreaksHard new ↔ BreaksHard line

theorem endsWithBreak_iff : endsWithBreak line = true ↔ [' ', ' '] <:+ dropFinal '\r' line := by
  rw [endsWithBreak, ← List.reverse_prefix]
  split
  · next heq => simp [heq]
  · next hne =>
    simp only [Bool.false_eq_true, List.reverse_cons, List.reverse_nil, List.nil_append,
      List.singleton_append, false_iff]
    rintro ⟨more, hmore⟩
    exact hne more (by simpa using hmore.symm)

/-- A line is written from its words, and from whether it breaks. -/
theorem normalizeLine_nil (place : Nat) (line : List Char) :
    normalizeLine [] place line =
      join [' '] (Text.words line) ++ if BreaksHard line then [' ', ' '] else [] := by
  have hempty : (join [' '] (Text.words line)).isEmpty = isBlankText line := by
    rw [Bool.eq_iff_iff, List.isEmpty_iff, ← words_eq_nil_iff]
    exact join_eq_nil_iff fun w hw => (not_blank_of_mem_words hw).1
  have hbreaks : (endsWithBreak line && !isBlankText line) = true ↔ BreaksHard line := by
    rw [Bool.and_eq_true, endsWithBreak_iff, Bool.not_eq_true', BreaksHard, and_comm]
  simp only [normalizeLine, words_nil, hempty, hbreaks]
  split
  · rfl
  · rw [List.append_nil]

theorem normalizeLines_nil (place : Nat) (lines : List (List Char)) :
    normalizeLines [] place lines = lines.map (normalizeLine [] 0) := by
  induction lines generalizing place with
  | nil => rfl
  | cons line rest ih =>
    rw [normalizeLines, ih, List.map_cons, normalizeLine_nil, normalizeLine_nil]

theorem isUnbroken_of_not_blank {c : Char} (h : isBlank c = false) : isUnbroken c := by
  constructor <;> rintro rfl <;> cases h

/-- A line with single spaces has no line end inside. -/
theorem isUnbroken_normalizeLine (line : List Char) :
    ∀ c ∈ normalizeLine [] 0 line, isUnbroken c := by
  intro c hc
  rw [normalizeLine_nil, List.mem_append] at hc
  rcases hc with hc | hc
  · exact isUnbroken_join
      (fun w hw d hd => isUnbroken_of_not_blank ((not_blank_of_mem_words hw).2 d hd)) c hc
  · split at hc
    · obtain rfl : c = ' ' := by simpa using hc
      exact ⟨by decide, by decide⟩
    · cases hc

theorem tidied_normalizeLine (line : List Char) : Tidied line (normalizeLine [] 0 line) := by
  have heq := normalizeLine_nil 0 line
  have hwords : ∀ w ∈ Text.words line, w ≠ [] ∧ ∀ c ∈ w, isBlank c = false :=
    fun w hw => not_blank_of_mem_words hw
  have hlast := getLast?_join hwords
  have hread : Text.words (normalizeLine [] 0 line) = Text.words line := by
    rw [heq, words_append_blanks, words_join hwords]
    split <;> simp [isBlank]
  have hblank : isBlankText (normalizeLine [] 0 line) = isBlankText line := by
    rw [Bool.eq_iff_iff, ← words_eq_nil_iff, ← words_eq_nil_iff, hread]
  have hdrop : dropFinal '\r' (normalizeLine [] 0 line) = normalizeLine [] 0 line :=
    dropFinal_of_not_mem fun h => (isUnbroken_normalizeLine line _ h).2 rfl
  -- the text of the words ends with no space, so all spaces at the end are those of the break
  have hspaces : ∀ n, List.replicate (n + 1) ' ' <:+ normalizeLine [] 0 line ↔
      BreaksHard line ∧ n < 2 := by
    intro n
    have hend : (join [' '] (Text.words line)).getLast? ≠ some ' ' :=
      fun h => by cases hlast ' ' h
    rw [heq]
    split
    · next hbreaks =>
      rw [and_iff_right hbreaks]
      exact (replicate_suffix_iff hend (n + 1) 2).trans Nat.succ_le_iff
    · next hbreaks =>
      exact (replicate_suffix_iff hend (n + 1) 0).trans (by simp [hbreaks])
  refine ⟨heq, hread, by simpa using hspaces 0, by simpa using hspaces 2, ?_⟩
  rw [BreaksHard, hblank, hdrop]
  have htwo : [' ', ' '] <:+ normalizeLine [] 0 line ↔ BreaksHard line := by simpa using hspaces 1
  rw [htwo, and_iff_right_iff_imp]
  exact And.left

/-! ## Paragraphs -/

/-- Lines are split back from their text, up to the carriage returns of their line ends. -/
theorem forall₂_split_join (he : IsEnding ending) {lines : List (List Char)} (hne : lines ≠ [])
    (h : ∀ l ∈ lines, ∀ c ∈ l, isUnbroken c) :
    List.Forall₂ (fun l piece => piece = l ∨ piece = l ++ ['\r']) lines
      (split '\n' (join ending lines)) := by
  induction lines with
  | nil => exact absurd rfl hne
  | cons l more ih =>
    obtain ⟨hl, hmore⟩ := List.forall_mem_cons.mp h
    have hfeed : '\n' ∉ l := (not_mem_of_isUnbroken hl).1
    cases more with
    | nil =>
      rw [join, split_of_not_mem hfeed]
      exact .cons (Or.inl rfl) .nil
    | cons m rest =>
      have hrest := ih (by simp) hmore
      rcases he with rfl | rfl
      · rw [join, List.append_assoc, List.singleton_append, split_piece hfeed]
        exact .cons (Or.inl rfl) hrest
      · have hpiece : '\n' ∉ l ++ ['\r'] := by simpa using hfeed
        have htext : l ++ ['\r', '\n'] ++ join ['\r', '\n'] (m :: rest) =
            (l ++ ['\r']) ++ '\n' :: join ['\r', '\n'] (m :: rest) := by simp
        rw [join, htext, split_piece hpiece]
        exact .cons (Or.inr rfl) hrest

theorem map_eq_of_forall₂ {R : List Char → List Char → Prop} {f : List Char → List Char}
    {lines pieces : List (List Char)} (h : List.Forall₂ R lines pieces)
    (hf : ∀ l ∈ lines, ∀ piece, R l piece → f piece = l) : pieces.map f = lines := by
  induction h with
  | nil => rfl
  | cons hfirst _ ih =>
    obtain ⟨hl, hmore⟩ := List.forall_mem_cons.mp hf
    rw [List.map_cons, hl _ hfirst, ih hmore]

/-- A written line is written once more as it is, also with the carriage return of its line end. -/
theorem Tidied.normalizeLine_eq (h : Tidied line new) (hnew : ∀ c ∈ new, isUnbroken c)
    {piece : List Char} (hpiece : piece = new ∨ piece = new ++ ['\r']) :
    normalizeLine [] 0 piece = new := by
  have hreturn : '\r' ∉ new := (not_mem_of_isUnbroken hnew).2
  have hwords : Text.words piece = Text.words line := by
    rcases hpiece with rfl | rfl
    · exact h.words_eq
    · rw [words_append_blanks (by simp [isBlank]), h.words_eq]
  have hdrop : dropFinal '\r' piece = dropFinal '\r' new := by
    rcases hpiece with rfl | rfl
    · rfl
    · rw [dropFinal_concat, dropFinal_of_not_mem hreturn]
  have hbreaks : BreaksHard piece ↔ BreaksHard line := by
    rw [← h.breaks_iff, BreaksHard, BreaksHard, hdrop, Bool.eq_false_iff, Bool.eq_false_iff, Ne, Ne,
      ← words_eq_nil_iff, ← words_eq_nil_iff, hwords, h.words_eq]
  rw [normalizeLine_nil, hwords, h.eq_join]
  simp only [hbreaks]

/-- **A paragraph without code is normalized line by line, and once is enough.** The new text has as
many lines as the old one; each holds the words of the old line with single spaces between them, and
ends with two spaces exactly when the old line had text and ended with at least two. -/
theorem tidied_normalize (he : IsEnding ending) (text : List Char) :
    ∃ lines, normalize [] ending text = join ending lines ∧
      (split '\n' (normalize [] ending text)).map (dropFinal '\r') = lines ∧
      (split '\n' (normalize [] ending text)).length = (split '\n' text).length ∧
      List.Forall₂ Tidied (split '\n' text) lines ∧
      normalize [] ending (normalize [] ending text) = normalize [] ending text := by
  obtain ⟨lines, hlines⟩ : ∃ lines, lines = (split '\n' text).map (normalizeLine [] 0) := ⟨_, rfl⟩
  have hjoin : ∀ t, normalize [] ending t = join ending ((split '\n' t).map (normalizeLine [] 0)) :=
    fun t => by rw [normalize, normalizeLines_nil]
  have hunbroken : ∀ l ∈ lines, ∀ c ∈ l, isUnbroken c := by
    intro l hl
    rw [hlines] at hl
    obtain ⟨old, -, rfl⟩ := List.mem_map.mp hl
    exact isUnbroken_normalizeLine old
  have hne : lines ≠ [] := by simp [hlines, Text.split_ne_nil]
  have htidied : List.Forall₂ Tidied (split '\n' text) lines := by
    rw [hlines, List.forall₂_map_right_iff, List.forall₂_same]
    exact fun line _ => tidied_normalizeLine line
  have hpieces := forall₂_split_join he hne hunbroken
  refine ⟨lines, by rw [hjoin, hlines], ?_, ?_, htidied, ?_⟩
  · rw [hjoin, ← hlines]
    refine map_eq_of_forall₂ hpieces fun l hl piece hpiece => ?_
    rcases hpiece with rfl | rfl
    · exact dropFinal_of_not_mem (not_mem_of_isUnbroken (hunbroken _ hl)).2
    · exact dropFinal_concat '\r' l
  · rw [hjoin, ← hlines, ← hpieces.length_eq, ← htidied.length_eq]
  · rw [hjoin text, ← hlines, hjoin]
    congr 1
    refine map_eq_of_forall₂ hpieces fun l hl piece hpiece => ?_
    obtain ⟨old, -, rfl⟩ := List.mem_map.mp (hlines ▸ hl)
    exact (tidied_normalizeLine old).normalizeLine_eq (hunbroken _ hl) hpiece

/-- Line ends of both kinds, a tab in front of the spaces of a break, a line of blanks, and a break
that is written with three spaces. -/
theorem normalize_mixed_line_ends :
    normalize [] ['\r', '\n'] "a \t b\t  \r\n \u00A0  \nc\u2003 d   \n\re \r".toList =
        "a b  \r\n\r\nc d  \r\ne".toList ∧
      normalize [] ['\r', '\n'] "a b  \r\n\r\nc d  \r\ne".toList =
        "a b  \r\n\r\nc d  \r\ne".toList := by
  have hwritten : normalize [] ['\r', '\n'] "a \t b\t  \r\n \u00A0  \nc\u2003 d   \n\re \r".toList =
      "a b  \r\n\r\nc d  \r\ne".toList := by decide
  obtain ⟨lines, -, -, -, -, htwice⟩ :=
    tidied_normalize (Or.inr rfl) "a \t b\t  \r\n \u00A0  \nc\u2003 d   \n\re \r".toList
  rw [hwritten] at htwice
  exact ⟨hwritten, htwice⟩

end LiveDoc.Layout
