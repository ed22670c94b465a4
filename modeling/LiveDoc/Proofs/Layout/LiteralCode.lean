import LiveDoc.Proofs.Layout.Normalized
import LiveDoc.Proofs.Layout.Paragraphs

/-!
# Code in paragraphs that are laid out

Blanks in code separate no words, so a piece of code stays in one word, and wrapping leaves it
alone. Normalization works line by line. It writes code that runs over several lines anew: with the
line ends of the document, and with two more spaces behind a line that ends with two (`relined`).
Whatever the layout, the pieces of code stand one behind the other in what is written, in their
order (`inOrder_code`).

* **words** — a text of words with anything between them holds the code of the text that the words
  are cut from (`Laid.of_spells`); this settles wrapping, and a single line that is normalized;
* **lines** — what stands on a line in front of its code and behind it does not decide whether code
  is followed by two more spaces, as code starts with a backtick (`endsWithBreak_append`).
-/

namespace LiveDoc

open Markdown (CutOut Glyph Stands)
open Text (Span IsEnding byteLength byteLength_append isBlank join slice split dropFinal
  split_piece split_of_not_mem)

namespace Layout

variable {kept : List Span} {place : Nat} {s t code text tail result rest ending : List Char}
variable {codes more ws : List (List Char)}

/-! ## Texts that stand in a text -/

/-- Texts stand in a text, one behind the other. -/
inductive InOrder : List (List Char) → List Char → Prop
  | nil (text : List Char) : InOrder [] text
  | cons (front code : List Char) {codes : List (List Char)} {rest : List Char}
      (h : InOrder codes rest) : InOrder (code :: codes) (front ++ (code ++ rest))

theorem InOrder.append_left (h : InOrder codes text) (front : List Char) :
    InOrder codes (front ++ text) := by
  cases h with
  | nil => exact .nil _
  | cons before code h =>
    rw [← List.append_assoc]
    exact .cons (front ++ before) code h

theorem InOrder.append (h : InOrder codes s) (h' : InOrder more t) :
    InOrder (codes ++ more) (s ++ t) := by
  induction h with
  | nil text => exact h'.append_left text
  | cons front code _ ih =>
    rw [List.append_assoc, List.append_assoc]
    exact .cons front code ih

theorem InOrder.append_right (h : InOrder codes text) (behind : List Char) :
    InOrder codes (text ++ behind) := by
  have hnone := h.append (.nil behind)
  rwa [List.append_nil] at hnone

theorem InOrder.isInfix (h : InOrder [code] text) : code <:+: text := by
  cases h with
  | cons front code _ => exact ⟨front, _, List.append_assoc ..⟩

/-! ## Words -/

/-- All characters of a text are in kept spans. -/
def Keeps (kept : List Span) : (place : Nat) → List Char → Prop
  | _, [] => True
  | place, c :: rest => kept.any (·.contains place) = true ∧ Keeps kept (place + c.utf8Size) rest

theorem keeps_of_mem {span : Span} (hspan : span ∈ kept) (hstart : span.start ≤ place)
    (hstop : place + byteLength text ≤ span.stop) : Keeps kept place text := by
  induction text generalizing place with
  | nil => trivial
  | cons c rest ih =>
    have hc := c.utf8Size_pos
    rw [byteLength] at hstop
    refine ⟨List.any_eq_true.mpr ⟨span, hspan, ?_⟩, ih (by omega) (by omega)⟩
    rw [Span.contains_iff]
    omega

theorem keeps_append :
    Keeps kept place (s ++ t) ↔ Keeps kept place s ∧ Keeps kept (place + byteLength s) t := by
  induction s generalizing place with
  | nil => simp [Keeps, byteLength]
  | cons c rest ih => simp only [List.cons_append, Keeps, ih, byteLength, Nat.add_assoc, and_assoc]

/-- A text that is kept goes on with the word in front of it. -/
theorem Keeps.wordsFrom (h : Keeps kept place s) (word t : List Char) :
    wordsFrom kept place word (s ++ t) =
      Layout.wordsFrom kept (place + byteLength s) (s.reverse ++ word) t := by
  induction s generalizing place word with
  | nil => simp [byteLength]
  | cons c rest ih =>
    obtain ⟨hc, hrest⟩ := h
    rw [List.cons_append, Layout.wordsFrom, splits, hc, Bool.not_true, Bool.and_false,
      if_neg (by decide), ih hrest, byteLength, Nat.add_assoc, List.reverse_cons, List.append_assoc,
      List.singleton_append]

/-- A text of words in order, which starts with the first word and ends with the last one. -/
inductive Spells : List (List Char) → List Char → Prop
  | nil : Spells [] []
  | cons (w gap : List Char) {ws : List (List Char)} {rest : List Char} (h : Spells ws rest)
      (hgap : ws = [] → gap = []) : Spells (w :: ws) (w ++ (gap ++ rest))

theorem spells_join (sep : List Char) (ws : List (List Char)) : Spells ws (join sep ws) := by
  induction ws with
  | nil => exact .nil
  | cons w more ih =>
    cases more with
    | nil =>
      have hone := Spells.cons w [] .nil fun _ => rfl
      rwa [List.append_nil, List.append_nil] at hone
    | cons v rest =>
      rw [join, List.append_assoc]
      exact .cons w sep ih (by simp)

/-- Where pieces of code stand in a text: behind them there is `tail`, which is kept as they are. -/
inductive Laid (kept : List Span) : (place : Nat) → List (List Char) → (tail text : List Char) →
    Prop
  | tail {place : Nat} {tail : List Char} (h : Keeps kept place tail) : Laid kept place [] tail tail
  | char {place : Nat} (c : Char) {codes : List (List Char)} {tail text : List Char}
      (h : Laid kept (place + c.utf8Size) codes tail text) : Laid kept place codes tail (c :: text)
  | code {place : Nat} {code : List Char} {codes : List (List Char)} {tail text : List Char}
      (hkept : Keeps kept place code) (htick : code.head? = some '`')
      (h : Laid kept (place + byteLength code) codes tail text) :
      Laid kept place (code :: codes) tail (code ++ text)

namespace Laid

theorem append (h : Laid kept (place + byteLength s) codes tail text) :
    Laid kept place codes tail (s ++ text) := by
  induction s generalizing place with
  | nil => exact h
  | cons c rest ih =>
    rw [byteLength, ← Nat.add_assoc] at h
    exact .char c (ih h)

theorem nil : Laid kept place [] [] text := by
  have hnone : Laid kept (place + byteLength text) [] [] [] := .tail trivial
  have hchars := hnone.append
  rwa [List.append_nil] at hchars

theorem inOrder (h : Laid kept place codes tail text) : InOrder codes text := by
  induction h with
  | tail => exact .nil _
  | char c _ ih => exact ih.append_left [c]
  | code _ _ _ ih => exact .cons [] _ ih

/-- **A text of the words holds the code**, between the word that was begun in front and the
tail. -/
theorem of_spells (h : Laid kept place codes tail text) {word : List Char}
    (hspells : Spells (wordsFrom kept place word text) result) :
    ∃ out, result = word.reverse ++ (out ++ tail) ∧ InOrder codes out := by
  induction h generalizing word result with
  | @tail place tail htail =>
    refine ⟨[], ?_, .nil _⟩
    have hwords := htail.wordsFrom word []
    rw [List.append_nil, wordsFrom] at hwords
    rw [hwords] at hspells
    split at hspells
    · next hempty =>
      obtain ⟨rfl, rfl⟩ : tail = [] ∧ word = [] := by simpa using hempty
      cases hspells
      rfl
    · cases hspells with
      | cons w gap hrest hgap =>
        cases hrest
        simp [hgap rfl]
  | char c _ ih =>
    rw [wordsFrom] at hspells
    split at hspells
    · split at hspells
      · next hempty =>
        obtain rfl : word = [] := by simpa using hempty
        exact ih hspells
      · cases hspells with
        | cons w gap hrest hgap =>
          obtain ⟨out, hout, hcodes⟩ := ih hrest
          exact ⟨gap ++ out, by simp [hout], hcodes.append_left gap⟩
    · obtain ⟨out, hout, hcodes⟩ := ih hspells
      exact ⟨c :: out, by simp [hout], hcodes.append_left [c]⟩
  | @code place code codes tail text hkept _ _ ih =>
    rw [hkept.wordsFrom] at hspells
    obtain ⟨out, hout, hcodes⟩ := ih hspells
    exact ⟨code ++ out, by simp [hout], .cons [] code hcodes⟩

end Laid

/-! ## Wrapping -/

theorem Spells.append {vs : List (List Char)} {gap : List Char} (h : Spells ws s) (h' : Spells vs t)
    (hws : ws ≠ []) (hgap : vs = [] → gap = []) : Spells (ws ++ vs) (s ++ (gap ++ t)) := by
  induction h with
  | nil => exact absurd rfl hws
  | @cons w before ws rest hrest hbefore ih =>
    rw [List.cons_append, List.append_assoc, List.append_assoc]
    by_cases hne : ws = []
    · subst hne
      cases hrest
      rw [hbefore rfl]
      exact .cons w gap h' hgap
    · refine .cons w before (ih hne) fun hnil => ?_
      exact absurd (List.append_eq_nil_iff.mp hnil).1 hne

theorem spells_lines (ending : List Char) {lines : List (List (List Char))}
    (h : ∀ l ∈ lines, l ≠ []) :
    Spells lines.flatten (join ending (lines.map (join [' ']))) := by
  induction lines with
  | nil => exact .nil
  | cons line more ih =>
    obtain ⟨hline, hmore⟩ := List.forall_mem_cons.mp h
    rw [List.flatten_cons, List.map_cons]
    cases more with
    | nil =>
      have hspells := spells_join [' '] line
      rwa [List.flatten_nil, List.append_nil]
    | cons next rest =>
      rw [List.map_cons, join, List.append_assoc]
      refine (spells_join [' '] line).append (ih hmore) hline fun hnil => ?_
      rw [List.flatten_cons, List.append_eq_nil_iff] at hnil
      exact absurd hnil.1 (hmore next List.mem_cons_self)

/-- **Wrapping leaves code alone.** -/
theorem Laid.inOrder_wrap (h : Laid kept 0 codes [] text) (width : Nat) (ending : List Char) :
    InOrder codes (wrap kept width ending text) := by
  have hgreedy := greedy_fill width (words kept 0 text)
  have hspells := spells_lines ending hgreedy.ne_nil
  rw [hgreedy.flatten] at hspells
  obtain ⟨out, hout, hcodes⟩ := h.of_spells hspells
  rw [wrap, hout]
  exact (hcodes.append_right []).append_left []

/-! ## Lines of code -/

/-- A text is its last line, or a line in front of further ones. -/
theorem line_induction {P : List Char → Prop} (last : ∀ line, '\n' ∉ line → P line)
    (line : ∀ line more, '\n' ∉ line → P more → P (line ++ '\n' :: more)) (text : List Char) :
    P text := by
  by_cases hfeed : '\n' ∈ text
  · obtain ⟨front, more, heq, hfront⟩ := List.eq_append_cons_of_mem hfeed
    rw [heq]
    exact line front more hfront (line_induction last line more)
  · exact last text hfeed
termination_by text.length
decreasing_by simp [heq]; omega

/-- What normalization puts behind a line that breaks hard. -/
def breakSpaces (line : List Char) : List Char := if endsWithBreak line then [' ', ' '] else []

/-- Lines, with two more spaces behind those but the last one that end with two. -/
def respaced : List (List Char) → List (List Char)
  | [] => []
  | [last] => [last]
  | line :: next :: rest => (line ++ breakSpaces line) :: respaced (next :: rest)

/-- Code whose lines are written anew. -/
def relined (ending code : List Char) : List Char := join ending (respaced (split '\n' code))

theorem respaced_ne_nil {lines : List (List Char)} (h : lines ≠ []) : respaced lines ≠ [] := by
  cases lines with
  | nil => exact absurd rfl h
  | cons line more => cases more <;> simp [respaced]

theorem join_cons (sep : List Char) (part : List Char) {parts : List (List Char)} (h : parts ≠ []) :
    join sep (part :: parts) = part ++ (sep ++ join sep parts) := by
  obtain ⟨next, rest, rfl⟩ := List.exists_cons_of_ne_nil h
  rw [join, List.append_assoc]

/-- Code on one line is not written anew. -/
theorem relined_of_not_mem (h : '\n' ∉ code) : relined ending code = code := by
  rw [relined, split_of_not_mem h]
  rfl

theorem relined_append {line : List Char} (h : '\n' ∉ line) (rest : List Char) :
    relined ending (line ++ '\n' :: rest) =
      line ++ (breakSpaces line ++ (ending ++ relined ending rest)) := by
  rw [relined, split_piece h]
  obtain ⟨next, more, hsplit⟩ := List.exists_cons_of_ne_nil (Text.split_ne_nil '\n' rest)
  rw [relined, hsplit, respaced, join_cons _ _ (respaced_ne_nil (List.cons_ne_nil _ _)),
    List.append_assoc]

theorem length_le_relined (hne : ending ≠ []) (code : List Char) :
    code.length ≤ (relined ending code).length := by
  have hending := List.length_pos_iff.mpr hne
  induction code using line_induction with
  | last line h => rw [relined_of_not_mem h]
  | line line more h ih =>
    rw [relined_append h]
    simp only [List.length_append, List.length_cons]
    omega

/-- **Code stays** when it is on one line, or its lines end with a line feed, and none but the last
one with two spaces. -/
theorem relined_eq_self_iff (hne : ending ≠ []) :
    relined ending code = code ↔ '\n' ∉ code ∨
      (ending = ['\n'] ∧ ∀ line ∈ (split '\n' code).dropLast, endsWithBreak line = false) := by
  induction code using line_induction with
  | last line h => exact iff_of_true (relined_of_not_mem h) (Or.inl h)
  | line line more h ih =>
    obtain ⟨next, others, hsplit⟩ := List.exists_cons_of_ne_nil (Text.split_ne_nil '\n' more)
    have hlines :
        (split '\n' (line ++ '\n' :: more)).dropLast = line :: (split '\n' more).dropLast := by
      rw [split_piece h, hsplit]
      rfl
    have hbreak : breakSpaces line = [] ↔ endsWithBreak line = false := by
      unfold breakSpaces
      split <;> simp_all
    have hsingle : '\n' ∉ more → (split '\n' more).dropLast = [] := fun hmore => by
      rw [split_of_not_mem hmore]
      rfl
    rw [relined_append h, List.append_cancel_left_eq, hlines, List.forall_mem_cons]
    constructor
    · -- nothing gets shorter, so nothing may get longer
      intro heq
      have hlength := congrArg List.length heq
      have hmore := length_le_relined hne more
      have hending := List.length_pos_iff.mpr hne
      simp only [List.length_append, List.length_cons] at hlength
      have hnone : breakSpaces line = [] := List.length_eq_zero_iff.mp (by omega)
      obtain ⟨c, hc⟩ := List.length_eq_one_iff.mp (show ending.length = 1 by omega)
      rw [hnone, hc, List.nil_append, List.singleton_append] at heq
      obtain ⟨rfl, heq⟩ := List.cons.inj heq
      subst hc
      refine Or.inr ⟨rfl, hbreak.mp hnone, ?_⟩
      rcases ih.mp heq with hnot | ⟨-, hothers⟩
      · simp [hsingle hnot]
      · exact hothers
    · rintro (hnot | ⟨rfl, hline, hothers⟩)
      · simp at hnot
      · rw [hbreak.mpr hline, ih.mpr (Or.inr ⟨rfl, hothers⟩)]
        rfl

/-! ## Normalization -/

/-- In front of code, a line does not decide whether it breaks hard. -/
theorem endsWithBreak_append (front : List Char) (htick : code.head? = some '`') :
    endsWithBreak (front ++ code) = endsWithBreak code := by
  obtain ⟨more, rfl⟩ := List.head?_eq_some_iff.mp htick
  have hdrop : dropFinal '\r' (front ++ '`' :: more) = front ++ dropFinal '\r' ('`' :: more) := by
    induction front with
    | nil => rfl
    | cons c rest ih =>
      rw [List.cons_append, List.cons_append, ← ih]
      cases rest <;> rfl
  obtain ⟨left, hleft⟩ : ∃ left, dropFinal '\r' ('`' :: more) = '`' :: left := by
    cases more with
    | nil => exact ⟨[], rfl⟩
    | cons c rest => exact ⟨_, rfl⟩
  rw [Bool.eq_iff_iff, endsWithBreak_iff, endsWithBreak_iff, hdrop, hleft]
  constructor
  · intro hsuffix
    rcases List.suffix_or_suffix_of_suffix hsuffix (List.suffix_append front _) with h | h
    · exact h
    · exact absurd (h.mem List.mem_cons_self) (by decide)
  · exact fun hsuffix => hsuffix.trans (List.suffix_append front _)

/-- A line that is kept as it is stays, with the spaces of its break. -/
theorem Keeps.normalizeLine {line : List Char} (h : Keeps kept place line) :
    normalizeLine kept place line = line ++ breakSpaces line := by
  have hwords := h.wordsFrom [] []
  have hjoin : join [' '] (words kept place line) = line := by
    rw [List.append_nil, List.append_nil, Layout.wordsFrom, List.isEmpty_reverse,
      List.reverse_reverse] at hwords
    rw [words, hwords]
    split
    · next hempty =>
      rw [List.isEmpty_iff.mp hempty]
      rfl
    · rfl
  rw [Layout.normalizeLine, hjoin, breakSpaces]
  cases line with
  | nil => rfl
  | cons c rest => cases endsWithBreak (c :: rest) <;> simp

/-- What stands on a line in front: pieces of code, and what follows may be laid there. -/
def Front (kept : List Span) (place : Nat) (codes : List (List Char)) (mid : List Char) : Prop :=
  ∀ {more : List (List Char)} {tail text : List Char},
    Laid kept (place + byteLength mid) more tail text →
      Laid kept place (codes ++ more) tail (mid ++ text)

theorem front_nil (kept : List Span) (place : Nat) : Front kept place [] [] := fun h => h

theorem Front.append_char {mid : List Char} (h : Front kept place codes mid) (c : Char) :
    Front kept place codes (mid ++ [c]) := by
  intro more tail text hlaid
  rw [byteLength_append, ← Nat.add_assoc] at hlaid
  rw [List.append_assoc]
  exact h (.char c hlaid)

theorem Front.append_code {mid : List Char} (h : Front kept place codes mid)
    (hkept : Keeps kept (place + byteLength mid) code) (htick : code.head? = some '`') :
    Front kept place (codes ++ [code]) (mid ++ code) := by
  intro more tail text hlaid
  rw [byteLength_append, ← Nat.add_assoc] at hlaid
  rw [List.append_assoc, List.append_assoc]
  exact h (.code hkept htick hlaid)

/-- A line that starts and ends with what is kept: both stay where they are, and the code between
them stays too. -/
theorem exists_normalizeLine {head mid : List Char} (hhead : Keeps kept place head)
    (hmid : Front kept (place + byteLength head) codes mid)
    (htail : Keeps kept (place + byteLength head + byteLength mid) tail) :
    ∃ out, InOrder codes out ∧ normalizeLine kept place (head ++ (mid ++ tail)) =
      head ++ (out ++ tail) ++
        if endsWithBreak (head ++ (mid ++ tail)) && !(head ++ (out ++ tail)).isEmpty then [' ', ' ']
        else [] := by
  have hlaid := hmid (.tail htail)
  rw [List.append_nil] at hlaid
  have hspells := spells_join [' '] (words kept place (head ++ (mid ++ tail)))
  rw [words, hhead.wordsFrom, List.append_nil] at hspells
  obtain ⟨out, hout, hcodes⟩ := hlaid.of_spells hspells
  rw [List.reverse_reverse] at hout
  refine ⟨out, hcodes, ?_⟩
  rw [normalizeLine, words, hhead.wordsFrom, List.append_nil, hout]
  split
  · rfl
  · rw [List.append_nil]

/-- A line that starts with what is kept. -/
theorem exists_normalizeLine_front {head mid : List Char} (hhead : Keeps kept place head)
    (hmid : Front kept (place + byteLength head) codes mid) :
    ∃ out, InOrder codes out ∧ normalizeLine kept place (head ++ mid) = head ++ out := by
  have hnothing : Keeps kept (place + byteLength head + byteLength mid) [] := trivial
  obtain ⟨out, hcodes, hout⟩ := exists_normalizeLine hhead hmid hnothing
  rw [List.append_nil] at hout
  rw [hout, List.append_nil, List.append_assoc]
  exact ⟨_, hcodes.append_right _, rfl⟩

/-- A line that code begins on, and does not end on. -/
theorem exists_normalizeLine_code {head mid : List Char} (hhead : Keeps kept place head)
    (hmid : Front kept (place + byteLength head) codes mid)
    (hcode : Keeps kept (place + byteLength head + byteLength mid) code)
    (htick : code.head? = some '`') :
    ∃ out, InOrder codes out ∧ normalizeLine kept place (head ++ (mid ++ code)) =
      head ++ (out ++ (code ++ breakSpaces code)) := by
  obtain ⟨out, hcodes, hout⟩ := exists_normalizeLine hhead hmid hcode
  refine ⟨out, hcodes, ?_⟩
  have hne : (head ++ (out ++ code)).isEmpty = false := by
    obtain ⟨more, rfl⟩ := List.head?_eq_some_iff.mp htick
    simp
  have hbreak : endsWithBreak (head ++ (mid ++ code)) = endsWithBreak code := by
    rw [← List.append_assoc, endsWithBreak_append _ htick]
  rw [hout, hne, hbreak, Bool.not_false, Bool.and_true, breakSpaces]
  simp only [List.append_assoc]

theorem normalizeLines_ne_nil (kept : List Span) (place : Nat) {lines : List (List Char)}
    (h : lines ≠ []) : normalizeLines kept place lines ≠ [] := by
  obtain ⟨line, more, rfl⟩ := List.exists_cons_of_ne_nil h
  exact List.cons_ne_nil _ _

/-- The text of the lines that are written for a text. -/
def normalized (kept : List Span) (ending : List Char) (place : Nat) (text : List Char) :
    List Char :=
  join ending (normalizeLines kept place (split '\n' text))

theorem normalized_of_not_mem (h : '\n' ∉ text) :
    normalized kept ending place text = normalizeLine kept place text := by
  rw [normalized, split_of_not_mem h]
  rfl

theorem normalized_append {line : List Char} (h : '\n' ∉ line) (rest : List Char) :
    normalized kept ending place (line ++ '\n' :: rest) =
      normalizeLine kept place line ++
        (ending ++ normalized kept ending (place + byteLength line + 1) rest) := by
  rw [normalized, split_piece h, normalizeLines, join_cons]
  · rfl
  · exact normalizeLines_ne_nil kept _ (Text.split_ne_nil _ _)

theorem byteLength_line (line rest : List Char) :
    byteLength (line ++ '\n' :: rest) = byteLength line + (1 + byteLength rest) :=
  byteLength_append line _

/-- Code that goes on at the start of a line is written anew, and what follows it is written as
behind the start of its last line. -/
theorem normalized_code (hkept : Keeps kept place code)
    (hlast : ∀ place' last, place' + byteLength last = place + byteLength code → '\n' ∉ last →
      Keeps kept place' last → ∃ out, InOrder codes out ∧
        normalized kept ending place' (last ++ text) = last ++ out) :
    ∃ out, InOrder codes out ∧
      normalized kept ending place (code ++ text) = relined ending code ++ out := by
  induction code using line_induction generalizing place with
  | last line h =>
    rw [relined_of_not_mem h]
    exact hlast place line rfl h hkept
  | line line more h ih =>
    obtain ⟨hline, hmore⟩ := keeps_append.mp hkept
    have hmore : Keeps kept (place + byteLength line + 1) more := hmore.2
    rw [byteLength_line, ← Nat.add_assoc, ← Nat.add_assoc] at hlast
    obtain ⟨out, hcodes, hout⟩ := ih hmore hlast
    refine ⟨out, hcodes, ?_⟩
    rw [List.append_assoc, List.cons_append, normalized_append h, hline.normalizeLine,
      relined_append h, hout]
    simp only [List.append_assoc]

/-- Code that ends on a later line than it begins on: the line in front of it is written up to its
first line end, and a line goes on behind it that starts with the end of the code. -/
theorem exists_normalized_code {start : Nat} {head mid line rest : List Char}
    {before : List (List Char)} (hfeed : '\n' ∉ head ++ (mid ++ line))
    (hhead : Keeps kept start head) (hmid : Front kept (start + byteLength head) before mid)
    (hkept : Keeps kept (start + byteLength head + byteLength mid) (line ++ '\n' :: rest))
    (htick : line.head? = some '`')
    (hlast : ∀ place' last, place' + byteLength last =
      start + byteLength head + byteLength mid + byteLength (line ++ '\n' :: rest) → '\n' ∉ last →
      Keeps kept place' last → ∃ out, InOrder codes out ∧
        normalized kept ending place' (last ++ text) = last ++ out) :
    ∃ out, InOrder (before ++ relined ending (line ++ '\n' :: rest) :: codes) out ∧
      normalized kept ending start (head ++ (mid ++ ((line ++ '\n' :: rest) ++ text))) =
        head ++ out := by
  obtain ⟨hkeepsLine, hkeepsRest⟩ := keeps_append.mp hkept
  have hkeepsRest :
    Keeps kept (start + byteLength head + byteLength mid + byteLength line + 1) rest :=
    hkeepsRest.2
  rw [byteLength_line, ← Nat.add_assoc, ← Nat.add_assoc] at hlast
  obtain ⟨out, hcodes, hout⟩ := exists_normalizeLine_code hhead hmid hkeepsLine htick
  obtain ⟨out', hcodes', hout'⟩ := normalized_code hkeepsRest hlast
  have hplace : start + byteLength (head ++ (mid ++ line)) + 1 =
      start + byteLength head + byteLength mid + byteLength line + 1 := by
    rw [byteLength_append, byteLength_append]
    omega
  have htext : head ++ (mid ++ ((line ++ '\n' :: rest) ++ text)) =
      (head ++ (mid ++ line)) ++ '\n' :: (rest ++ text) := by simp
  have hline : '\n' ∉ line := fun hmem => hfeed (by simp [hmem])
  refine ⟨out ++ ([] ++ (relined ending (line ++ '\n' :: rest) ++ out')),
    hcodes.append (.cons [] _ hcodes'), ?_⟩
  rw [htext, normalized_append hfeed, hplace, hout, hout', relined_append hline]
  simp only [List.append_assoc, List.nil_append]

/-- **Normalization keeps code, up to its line ends**: `head ++ mid` is what stands on the line in
front, of which `head` is the end of code that began on an earlier line. -/
theorem Laid.exists_normalized (h : Laid kept place codes tail text) (htail : tail = [])
    {start : Nat} {head mid : List Char} {before : List (List Char)}
    (hplace : start + byteLength head + byteLength mid = place) (hfeed : '\n' ∉ head ++ mid)
    (hhead : Keeps kept start head) (hmid : Front kept (start + byteLength head) before mid) :
    ∃ out, InOrder (before ++ codes.map (relined ending)) out ∧
      normalized kept ending start (head ++ (mid ++ text)) = head ++ out := by
  induction h generalizing start head mid before with
  | tail =>
    subst htail
    obtain ⟨out, hcodes, hout⟩ := exists_normalizeLine_front hhead hmid
    rw [List.append_nil, normalized_of_not_mem hfeed, hout, List.map_nil, List.append_nil]
    exact ⟨out, hcodes, rfl⟩
  | @char place c codes tail text _ ih =>
    by_cases hc : c = '\n'
    · subst hc
      -- the line ends here, and the next one starts with nothing
      obtain ⟨out, hcodes, hout⟩ := exists_normalizeLine_front hhead hmid
      have hnext : start + byteLength (head ++ mid) + 1 = place + 1 := by
        rw [byteLength_append, ← Nat.add_assoc, hplace]
      obtain ⟨out', hcodes', hout'⟩ := @ih htail (start + byteLength (head ++ mid) + 1) [] [] []
        hnext (by simp) trivial (front_nil kept _)
      rw [List.nil_append] at hcodes' hout'
      rw [← List.append_assoc, normalized_append hfeed, hout]
      refine ⟨out ++ (ending ++ out'), hcodes.append (hcodes'.append_left ending), ?_⟩
      rw [List.nil_append] at hout'
      rw [hout', List.nil_append, List.append_assoc]
    · have hlonger := @ih htail start head (mid ++ [c]) before ?_ ?_ hhead (hmid.append_char c)
      · simpa using hlonger
      · rw [byteLength_append, ← Nat.add_assoc, hplace]
        rfl
      · simp_all [Ne.symm hc]
  | @code place code codes tail text hkept htick _ ih =>
    subst hplace
    by_cases hfeeds : '\n' ∈ code
    · obtain ⟨line, rest, rfl, hline⟩ := List.eq_append_cons_of_mem hfeeds
      have htick' : line.head? = some '`' := by
        cases line with
        | nil => cases htick
        | cons c more => exact htick
      refine exists_normalized_code (by simp_all) hhead hmid hkept htick' ?_
      intro place' last hplace' hlast hkeeps
      have hbehind : place' + byteLength last + byteLength [] =
          start + byteLength head + byteLength mid + byteLength (line ++ '\n' :: rest) := hplace'
      exact @ih htail place' last [] [] hbehind (by simpa using hlast) hkeeps (front_nil kept _)
    · have hlonger := @ih htail start head (mid ++ code) (before ++ [code]) ?_ ?_ hhead
        (hmid.append_code hkept htick)
      · rw [List.map_cons, relined_of_not_mem hfeeds]
        simpa using hlonger
      · rw [byteLength_append, ← Nat.add_assoc]
      · simp_all

/-- **Normalization keeps code, up to its line ends.** -/
theorem Laid.inOrder_normalize (h : Laid kept 0 codes [] text) (ending : List Char) :
    InOrder (codes.map (relined ending)) (normalize kept ending text) := by
  have hstart : 0 + byteLength [] + byteLength [] = 0 := rfl
  have hfirst : Keeps kept 0 [] := trivial
  obtain ⟨out, hcodes, hout⟩ := h.exists_normalized rfl hstart (by simp) hfirst (front_nil kept _)
  rw [List.nil_append, List.nil_append, List.nil_append] at hout
  rw [List.nil_append, ← hout] at hcodes
  exact hcodes

/-! ## Paragraphs -/

/-- Whether laying out a paragraph keeps its lines, and puts single spaces on them. -/
def keepsLines (options : Options) (t : Tree) : Bool :=
  options.normalizes && (options.width.isNone || t.nodes.any (·.isNamed "break"))

theorem formatted?_eq (options : Options) (ending old : List Char) (start : Nat) (t : Tree) :
    formatted? options ending old start t =
      if keepsLines options t then some (normalize (codeSpans start t) ending old)
      else if t.nodes.any (·.isNamed "break") then none
      else options.width.map fun width => wrap (codeSpans start t) width ending old := by
  unfold formatted? keepsLines
  cases options.width <;> cases options.normalizes <;> cases t.nodes.any (·.isNamed "break") <;> rfl

/-- What becomes of a piece of code in a paragraph that is laid out. -/
def relaidCode (options : Options) (ending : List Char) (t : Tree) (code : List Char) : List Char :=
  if keepsLines options t then relined ending code else code

/-- **The code of a paragraph stays in its order when the paragraph is laid out.** -/
theorem Laid.inOrder_formatted {options : Options} {t : Tree} {start : Nat}
    (h : Laid (codeSpans start t) 0 codes [] text) (ending : List Char) :
    InOrder (codes.map (relaidCode options ending t))
      ((formatted? options ending text start t).getD text) := by
  rw [formatted?_eq]
  unfold relaidCode
  split
  · exact h.inOrder_normalize ending
  · rw [List.map_id']
    split
    · exact h.inOrder
    · cases options.width with
      | none => exact h.inOrder
      | some width => exact h.inOrder_wrap width ending

/-- Code that is cut out of a run of glyphs is laid in the text of the run. -/
theorem exists_laid {source before after : List Char} {gs : List Glyph}
    {places : List (Option Span)} (hcut : CutOut gs places) {base first : Nat}
    (hfirst : first = byteLength before) (hsource : source = before ++ (text ++ after))
    (hstands : Stands source first (first + byteLength text) gs) (hbase : base ≤ first)
    (hkept : ∀ span, some span ∈ places → ⟨span.start - base, span.stop - base⟩ ∈ kept) :
    ∃ codes, places.map (·.bind (slice source)) = codes.map some ∧
      Laid kept (first - base) codes [] text := by
  induction hcut generalizing before text first with
  | nil => exact ⟨[], rfl, .nil⟩
  | skip g _ ih =>
    exact ih hfirst hsource (hstands.sublist (List.sublist_cons_self _ _)) hbase hkept
  | @run run rest places htick _ ih =>
    have hne : run ≠ [] := by
      rintro rfl
      cases htick
    have hrun := hstands.sublist (List.sublist_append_left run rest)
    obtain ⟨more, hslice⟩ := hrun.exists_slice_tick htick
    obtain ⟨hstart, hstop, -⟩ := hrun.spanOf hne
    obtain ⟨pre, post, rfl, hpre, hcode⟩ :=
      Markdown.exists_parts_of_slice hsource hslice (hfirst ▸ hstart) (hfirst ▸ hstop)
    have hrest := hstands.behind hne
    have hin := hkept _ List.mem_cons_self
    generalize Glyph.spanOf run = span at hslice hstart hpre hcode hrest hin ⊢
    rw [byteLength_append, byteLength_append] at hrest
    have hsource' : source = (before ++ (pre ++ '`' :: more)) ++ (post ++ after) := by
      simp [hsource]
    have hfirst' : span.stop = byteLength (before ++ (pre ++ '`' :: more)) := by
      simp only [byteLength_append]
      omega
    obtain ⟨codes, hcodes, hlaid⟩ :=
      ih hfirst' hsource' (by convert hrest using 1; omega) (by omega)
      fun s hs => hkept s (List.mem_cons_of_mem _ hs)
    refine ⟨('`' :: more) :: codes, by simp [hcodes, hslice], .append (.code ?_ rfl ?_)⟩
    · refine keeps_of_mem hin ?_ ?_
      · show span.start - base ≤ _
        omega
      · show _ ≤ span.stop - base
        omega
    · convert hlaid using 1
      omega

end Layout

namespace Document

open Layout

variable {source : String} {options : Options}

/-- **Code in a paragraph that is laid out.** The inline code of a paragraph stands in it piece by
piece, and in the text that is written for the paragraph the pieces stand in the same order, each as
`relaidCode` leaves it: as it was, unless the lines of the paragraph are kept and the code is on
several of them. Then it has the line ends of the document, and two more spaces behind each line
that ended with two. -/
theorem inOrder_code {t : Tree} (ht : t ∈ (ofMarkdown source).root.children)
    (hnamed : t.isNamed "paragraph" = true) (options : Options) :
    ∃ span old codes, t.span = some span ∧ slice source.toList span = some old ∧
      (t.nodes.filter (·.isNamed "inlineCode")).map (fun c => c.span.bind (slice source.toList)) =
        codes.map some ∧
      InOrder codes old ∧
      InOrder (codes.map (relaidCode options (lineEnding none source.toList) t))
        ((formatted? options (lineEnding none source.toList) old span.start t).getD old) ∧
      ∀ code, relaidCode options (lineEnding none source.toList) t code = code ↔
        keepsLines options t = false ∨ '\n' ∉ code ∨
          (lineEnding none source.toList = ['\n'] ∧
            ∀ line ∈ (split '\n' code).dropLast, endsWithBreak line = false) := by
  obtain ⟨gs, hmade⟩ := exists_glyphs ht hnamed
  obtain ⟨old, hold⟩ : ∃ old, slice source.toList (Glyph.spanOf gs) = some old := by
    cases hgs : gs with
    | nil => exact ⟨[], Text.slice_eq_some_iff.mpr ⟨[], source.toList, rfl, rfl, rfl⟩⟩
    | cons g more => exact hgs ▸ (hmade.stands.spanOf (by simp [hgs])).2.2
  obtain ⟨before, after, hwhole, hstart, hstop⟩ := Text.slice_eq_some_iff.mp hold
  have hstands := hmade.stands.narrow
  rw [hstop, hstart] at hstands
  have hkept : ∀ span, some span ∈ (t.nodes.filter (·.isNamed "inlineCode")).map Tree.span →
      ⟨span.start - byteLength before, span.stop - byteLength before⟩ ∈
        codeSpans (Glyph.spanOf gs).start t := by
    intro span hspan
    obtain ⟨c, hc, hcspan⟩ := List.mem_map.mp hspan
    rw [codeSpans, List.mem_filterMap, ← hstart]
    exact ⟨c, hc, by rw [hcspan]; rfl⟩
  obtain ⟨codes, hcodes, hlaid⟩ := exists_laid hmade.code rfl hwhole hstands (Nat.le_refl _) hkept
  rw [Nat.sub_self] at hlaid
  rw [List.map_map] at hcodes
  refine ⟨_, old, codes, hmade.span, hold, hcodes, hlaid.inOrder, hlaid.inOrder_formatted _,
    fun code => ?_⟩
  have hending : lineEnding none source.toList ≠ [] := by
    rcases isEnding_lineEnding none source.toList with h | h <;> simp [h]
  unfold relaidCode
  cases keepsLines options t with
  | false => simp
  | true => simpa using relined_eq_self_iff hending

/-- Code with spaces inside, over two lines, and with a backtick in it, behind a list. -/
def codePieces : String := "- x\n\nsee   `a   b`  and\t`c \n   d`  or\n  `` ` ``  \ne\n"

/-- The last block of a document. -/
def lastBlock (d : Document) : Tree := d.root.children.getLast?.getD (.leaf "" none)

theorem inOrder_code_pieces :
    lastBlock (ofMarkdown codePieces) ∈ (ofMarkdown codePieces).root.children ∧
      (lastBlock (ofMarkdown codePieces)).isNamed "paragraph" = true ∧
      ∃ span old, (lastBlock (ofMarkdown codePieces)).span = some span ∧
        slice codePieces.toList span = some old ∧
        InOrder ["`a   b`".toList, "`c \n   d`".toList, "`` ` ``".toList]
          ((formatted? ⟨some 7, true⟩ ['\n'] old span.start
          (lastBlock (ofMarkdown codePieces))).getD old) := by
  have hmem : lastBlock (ofMarkdown codePieces) ∈ (ofMarkdown codePieces).root.children := by
    decide +kernel
  have hnamed : (lastBlock (ofMarkdown codePieces)).isNamed "paragraph" = true := by decide +kernel
  have hending : lineEnding none codePieces.toList = ['\n'] := by decide +kernel
  have hplaces : ((lastBlock (ofMarkdown codePieces)).nodes.filter (·.isNamed "inlineCode")).map
      (fun c => c.span.bind (slice codePieces.toList)) =
      ["`a   b`".toList, "`c \n   d`".toList, "`` ` ``".toList].map some := by decide +kernel
  refine ⟨hmem, hnamed, ?_⟩
  obtain ⟨span, old, codes, hspan, hold, hcodes, -, horder, hsame⟩ :=
    inOrder_code hmem hnamed ⟨some 7, true⟩
  refine ⟨span, old, hspan, hold, ?_⟩
  have hpieces : codes = ["`a   b`".toList, "`c \n   d`".toList, "`` ` ``".toList] :=
    List.map_injective_iff.mpr (fun _ _ => Option.some.inj) (hcodes.symm.trans hplaces)
  have hbreaks :
      ∀ code ∈ codes, ∀ line ∈ (split '\n' code).dropLast, endsWithBreak line = false := by
    rw [hpieces]
    decide +kernel
  rw [hending] at horder hsame
  have hkept :
      codes.map (relaidCode ⟨some 7, true⟩ ['\n'] (lastBlock (ofMarkdown codePieces))) = codes := by
    conv_rhs => rw [← List.map_id codes]
    exact List.map_congr_left fun code hcode => (hsame code).mpr
      (.inr (.inr ⟨rfl, hbreaks code hcode⟩))
  rwa [hkept, hpieces] at horder

/-- Code with a line that ends with two spaces gets two more of them, and so it is not what it
was. -/
theorem normalize_changes_code :
    ¬ ∀ (source : String) (options : Options), ∀ t ∈ (ofMarkdown source).root.children,
      t.isNamed "paragraph" = true → ∀ span old codes, t.span = some span →
        slice source.toList span = some old →
        (t.nodes.filter (·.isNamed "inlineCode")).map (fun c => c.span.bind (slice source.toList)) =
          codes.map some →
        InOrder codes
          ((formatted? options (lineEnding none source.toList) old span.start t).getD old) := by
  intro h
  have horder := h "`a  \nb`" ⟨none, true⟩ (lastBlock (ofMarkdown "`a  \nb`")) (by decide +kernel)
    (by decide +kernel) ⟨0, 7⟩ "`a  \nb`".toList ["`a  \nb`".toList] (by decide +kernel)
    (by decide +kernel) (by decide +kernel)
  have hformatted : formatted? ⟨none, true⟩ (lineEnding none "`a  \nb`".toList) "`a  \nb`".toList 0
      (lastBlock (ofMarkdown "`a  \nb`")) = some "`a    \nb`".toList := by decide +kernel
  rw [hformatted] at horder
  exact absurd horder.isInfix (by decide +kernel)

end Document

end LiveDoc
