import LiveDoc.Text.Lines

/-!
# The pieces of a text

What stands between the occurrences of a character, for any character.

* `split_append` — cutting at one occurrence cuts the pieces in two;
* `of_mem_split` — the characters of the pieces;
* `split_join` — pieces that are joined are found again.
-/

namespace LiveDoc.Text

variable {sep : Char} {piece : List Char}

/-- In front of an occurrence and behind it the pieces are those of either side. -/
theorem split_append (sep : Char) (front rest : List Char) :
    split sep (front ++ sep :: rest) = split sep front ++ split sep rest := by
  induction front with
  | nil => simp [split]
  | cons c more ih =>
    rw [List.cons_append, split, split, ih]
    obtain ⟨first, others, hsplit⟩ := List.exists_cons_of_ne_nil (split_ne_nil sep more)
    rw [hsplit]
    split <;> rfl

theorem split_of_not_mem (h : sep ∉ piece) : split sep piece = [piece] := by
  induction piece with
  | nil => rfl
  | cons c more ih =>
    rw [List.mem_cons, not_or] at h
    rw [split, if_neg (Ne.symm h.1), ih h.2]

/-- What stands in front of the first occurrence is the first piece. -/
theorem split_piece (h : sep ∉ piece) (rest : List Char) :
    split sep (piece ++ sep :: rest) = piece :: split sep rest := by
  rw [split_append, split_of_not_mem h, List.singleton_append]

/-- The characters of a piece are those of the text, without separators. -/
theorem of_mem_split {c : Char} {s : List Char} (h : piece ∈ split sep s) (hc : c ∈ piece) :
    c ∈ s ∧ c ≠ sep := by
  induction s generalizing piece with
  | nil =>
    rw [List.mem_singleton.mp h] at hc
    cases hc
  | cons d rest ih =>
    rw [split] at h
    split at h
    · rcases List.mem_cons.mp h with rfl | hrest
      · cases hc
      · exact (ih hrest hc).imp_left (List.mem_cons_of_mem d)
    · next hd =>
      cases hs : split sep rest with
      | nil => exact absurd hs (split_ne_nil sep rest)
      | cons first others =>
        rw [hs] at h ih
        rcases List.mem_cons.mp h with rfl | hrest
        · rcases List.mem_cons.mp hc with rfl | hc
          · exact ⟨List.mem_cons_self, hd⟩
          · exact (ih List.mem_cons_self hc).imp_left (List.mem_cons_of_mem d)
        · exact (ih (List.mem_cons_of_mem first hrest) hc).imp_left (List.mem_cons_of_mem d)

theorem not_mem_of_mem_split {s : List Char} (h : piece ∈ split sep s) : sep ∉ piece :=
  fun hmem => (of_mem_split h hmem).2 rfl

theorem endsWith_eq (c : Char) (s : List Char) : endsWith c s = decide (s.getLast? = some c) := by
  induction s with
  | nil => rfl
  | cons d more ih =>
    cases more with
    | nil => simp [endsWith]
    | cons e more => rw [endsWith, List.getLast?_cons_cons, ih]

/-- Joining is that of lists. -/
theorem join_eq_intercalate (sep : List Char) (parts : List (List Char)) :
    join sep parts = sep.intercalate parts := by
  induction parts with
  | nil => rfl
  | cons part more ih =>
    cases more with
    | nil => rw [join, List.intercalate_singleton]
    | cons next rest => rw [join, List.intercalate_cons_cons, ih]

/-- **Pieces without the character are found again** when they are joined by it. -/
theorem split_join {pieces : List (List Char)} (hne : pieces ≠ []) (h : ∀ p ∈ pieces, sep ∉ p) :
    split sep (join [sep] pieces) = pieces := by
  induction pieces with
  | nil => exact absurd rfl hne
  | cons first more ih =>
    obtain ⟨hfirst, hmore⟩ := List.forall_mem_cons.mp h
    cases more with
    | nil => rw [join, split_of_not_mem hfirst]
    | cons next rest =>
      rw [join, List.append_assoc, List.singleton_append, split_piece hfirst,
        ih (List.cons_ne_nil next rest) hmore]

end LiveDoc.Text
