import Mathlib.Data.List.Chain
import LiveDoc.Layout.Words

/-!
# Greedy lines

Words are put on lines one after another. A word stays on the line when it fits there, or when it
could start a block at the start of a line of its own. Else it starts the next line.

* `Greedy` says this of lines as they stand, whatever has made them;
* **existence** — the lines that `fill` makes are greedy (`greedy_fill`);
* **uniqueness** — no other lines of these words are (`Greedy.eq_fill`).
-/

namespace LiveDoc.Layout

open Text (Span join)

variable {width : Nat} {line ws : List (List Char)} {lines : List (List (List Char))}

/-- How long a line of words is, with single spaces between them. -/
def lineLength (line : List (List Char)) : Nat := (join [' '] line).length

theorem lineLength_singleton (word : List Char) : lineLength [word] = word.length := rfl

theorem lineLength_append_singleton (hne : line ≠ []) (word : List Char) :
    lineLength (line ++ [word]) = lineLength line + 1 + word.length := by
  induction line with
  | nil => exact absurd rfl hne
  | cons first rest ih =>
    cases rest with
    | nil => simp [lineLength, join]; omega
    | cons next rest =>
      have hrest := ih (List.cons_ne_nil next rest)
      simp only [lineLength, List.cons_append, join, List.length_append] at hrest ⊢
      omega

/-- The words of a line fit: each one behind others ends within the width, or could start a
block. -/
def LineFits (width : Nat) (line : List (List Char)) : Prop :=
  ∀ front word back, line = front ++ word :: back → front ≠ [] →
    lineLength (front ++ [word]) ≤ width ∨ startsBlock word = true

/-- A line has to end in front of the next one, whose first word does not fit and starts no
block. -/
def Breaks (width : Nat) (line next : List (List Char)) : Prop :=
  ∀ word ∈ next.head?, startsBlock word = false ∧ width < lineLength line + 1 + word.length

/-- Lines have the words of a text in their order, and each line has as many of them as may be. -/
structure Greedy (width : Nat) (ws : List (List Char)) (lines : List (List (List Char))) :
    Prop where
  flatten : lines.flatten = ws
  ne_nil : ∀ line ∈ lines, line ≠ []
  fits : ∀ line ∈ lines, LineFits width line
  breaks : lines.IsChain (Breaks width)

theorem lineFits_singleton (word : List Char) : LineFits width [word] := by
  intro front word' back heq hne
  cases front with
  | nil => exact absurd rfl hne
  | cons first front => simp at heq

theorem LineFits.append_singleton (h : LineFits width line) {word : List Char}
    (hword : lineLength (line ++ [word]) ≤ width ∨ startsBlock word = true) :
    LineFits width (line ++ [word]) := by
  intro front word' back heq hne
  rcases List.eq_nil_or_concat back with rfl | ⟨back, last, rfl⟩
  · obtain ⟨rfl, hlast⟩ := List.append_inj' heq rfl
    cases hlast
    exact hword
  · rw [List.concat_eq_append, ← List.cons_append, ← List.append_assoc] at heq
    exact h front word' back (List.append_inj_left' heq rfl) hne

theorem Greedy.nil : Greedy width [] [] where
  flatten := rfl
  ne_nil := fun _ h => absurd h List.not_mem_nil
  fits := fun _ h => absurd h List.not_mem_nil
  breaks := .nil

/-- One more line in front of greedy ones. -/
theorem Greedy.cons (h : Greedy width ws lines) (hne : line ≠ []) (hfits : LineFits width line)
    (hbreaks : ∀ next ∈ lines.head?, Breaks width line next) :
    Greedy width (line ++ ws) (line :: lines) where
  flatten := by rw [List.flatten_cons, h.flatten]
  ne_nil := List.forall_mem_cons.mpr ⟨hne, h.ne_nil⟩
  fits := List.forall_mem_cons.mpr ⟨hfits, h.fits⟩
  breaks := List.isChain_cons.mpr ⟨hbreaks, h.breaks⟩

/-- What is behind the first one of greedy lines. -/
theorem Greedy.tail (h : Greedy width ws (line :: lines)) : Greedy width lines.flatten lines where
  flatten := rfl
  ne_nil := (List.forall_mem_cons.mp h.ne_nil).2
  fits := (List.forall_mem_cons.mp h.fits).2
  breaks := h.breaks.tail

/-- Where there are no words, there are no lines. -/
theorem Greedy.eq_nil (h : Greedy width ws lines) (hws : ws = []) : lines = [] :=
  List.eq_nil_iff_forall_not_mem.mpr fun line hline =>
    h.ne_nil line hline (List.flatten_eq_nil_iff.mp (h.flatten.trans hws) line hline)

/-- A line behind another one starts with a word that starts no block. -/
theorem Greedy.startsBlock_eq_false (h : Greedy width ws (line :: lines)) {next : List (List Char)}
    (hnext : next ∈ lines) : ∃ word more, next = word :: more ∧ startsBlock word = false := by
  induction lines generalizing ws line with
  | nil => cases hnext
  | cons second lines ih =>
    rcases List.mem_cons.mp hnext with rfl | hnext
    · obtain ⟨word, more, rfl⟩ := List.exists_cons_of_ne_nil (h.tail.ne_nil next List.mem_cons_self)
      exact ⟨word, more, rfl, ((List.isChain_cons.mp h.breaks).1 _ rfl word rfl).1⟩
    · exact ih h.tail hnext

/-! ## Existence -/

theorem head?_fillFrom (width length : Nat) (line ws : List (List Char)) :
    ∃ more, (fillFrom width line length ws).head? = some (line ++ more) := by
  induction ws generalizing line length with
  | nil => exact ⟨[], by rw [fillFrom, List.head?_cons, List.append_nil]⟩
  | cons word rest ih =>
    rw [fillFrom]
    split
    · obtain ⟨more, hmore⟩ := ih (length + 1 + word.length) (line ++ [word])
      exact ⟨word :: more, by rw [hmore, List.append_assoc]; rfl⟩
    · exact ⟨[], by rw [List.head?_cons, List.append_nil]⟩

theorem greedy_fillFrom (hne : line ≠ []) (hfits : LineFits width line) :
    Greedy width (line ++ ws) (fillFrom width line (lineLength line) ws) := by
  induction ws generalizing line with
  | nil => exact Greedy.nil.cons hne hfits (by simp)
  | cons word rest ih =>
    rw [fillFrom, ← lineLength_append_singleton hne]
    split
    · next hword =>
      rw [Bool.or_eq_true, decide_eq_true_eq] at hword
      have hlonger := ih (by simp) (hfits.append_singleton hword)
      rwa [List.append_assoc] at hlonger
    · next hword =>
      rw [Bool.or_eq_true, decide_eq_true_eq, not_or, lineLength_append_singleton hne, Nat.not_le,
        Bool.not_eq_true] at hword
      refine (ih (List.cons_ne_nil word []) (lineFits_singleton word)).cons hne hfits ?_
      intro next hnext first hfirst
      obtain ⟨more, hmore⟩ := head?_fillFrom width word.length [word] rest
      rw [lineLength_singleton, hmore] at hnext
      cases hnext
      cases hfirst
      exact hword.symm

/-- The lines that words fill are greedy. -/
theorem greedy_fill (width : Nat) (ws : List (List Char)) : Greedy width ws (fill width ws) := by
  cases ws with
  | nil => exact Greedy.nil
  | cons word rest => exact greedy_fillFrom (List.cons_ne_nil word []) (lineFits_singleton word)

/-! ## Uniqueness -/

/-- Greedy lines whose first line has some words already go on as `fillFrom` does. -/
theorem Greedy.eq_fillFrom (hne : line ≠ []) {more : List (List Char)}
    (h : Greedy width (line ++ ws) ((line ++ more) :: lines)) :
    (line ++ more) :: lines = fillFrom width line (lineLength line) ws := by
  induction ws generalizing line more lines with
  | nil =>
    have hflatten := h.flatten
    simp only [List.flatten_cons, List.append_assoc, List.append_cancel_left_eq,
      List.append_eq_nil_iff]
      at hflatten
    obtain ⟨rfl, hlines⟩ := hflatten
    rw [h.tail.eq_nil hlines, List.append_nil, fillFrom]
  | cons word rest ih =>
    have hflatten : more ++ lines.flatten = word :: rest := by
      have := h.flatten
      rwa [List.flatten_cons, List.append_assoc, List.append_cancel_left_eq] at this
    rw [fillFrom, ← lineLength_append_singleton hne]
    cases more with
    | cons first more =>
      obtain ⟨rfl, -⟩ := List.cons.inj hflatten
      have hword := h.fits _ List.mem_cons_self line first more rfl hne
      rw [if_pos (by simpa using hword)]
      rw [List.append_cons line first more] at h ⊢
      rw [List.append_cons line first rest] at h
      exact ih (by simp) h
    | nil =>
      rw [List.nil_append] at hflatten
      cases lines with
      | nil => cases hflatten
      | cons next lines =>
        obtain ⟨first, more, rfl⟩ :=
          List.exists_cons_of_ne_nil (h.tail.ne_nil next List.mem_cons_self)
        obtain ⟨rfl, -⟩ := List.cons.inj hflatten
        obtain ⟨hstarts, hlong⟩ := (List.isChain_cons.mp h.breaks).1 _ rfl first rfl
        rw [List.append_nil, ← lineLength_append_singleton hne] at hlong
        have htail := h.tail
        rw [hflatten] at htail
        have hrest :
          ([first] ++ more) :: lines = fillFrom width [first] (lineLength [first]) rest :=
          ih (List.cons_ne_nil first []) htail
        rw [if_neg (by simp [hstarts, hlong]), ← lineLength_singleton, ← hrest, List.append_nil]
        rfl

/-- There are no other greedy lines. -/
theorem Greedy.eq_fill (h : Greedy width ws lines) : lines = fill width ws := by
  cases lines with
  | nil =>
    rw [← h.flatten]
    rfl
  | cons line lines =>
    obtain ⟨word, more, rfl⟩ := List.exists_cons_of_ne_nil (h.ne_nil line List.mem_cons_self)
    have hflatten : word :: (more ++ lines.flatten) = ws := h.flatten
    subst hflatten
    have hword : [word] ≠ [] := List.cons_ne_nil word []
    exact Greedy.eq_fillFrom hword h

/-- **A paragraph is wrapped greedily**: its words are on lines with single spaces between them, the
lines are greedy, and no other lines of its words are. -/
theorem wrap_greedy (kept : List Span) (width : Nat) (ending text : List Char) :
    ∃ lines, Greedy width (words kept 0 text) lines ∧
      wrap kept width ending text = join ending (lines.map (join [' '])) ∧
      ∀ other, Greedy width (words kept 0 text) other → other = lines :=
  ⟨fill width (words kept 0 text), greedy_fill width _, rfl, fun _ h => h.eq_fill⟩

/-- A dash would start a list on a line of its own, so it stays on a line that is too short for
it. -/
example : wrap [] 5 ['\n'] "aa bb - cc".toList = "aa bb -\ncc".toList := by decide +kernel

end LiveDoc.Layout
