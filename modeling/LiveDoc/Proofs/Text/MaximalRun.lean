import Mathlib.Data.List.TakeDrop

/-!
# Maximal runs

A run of characters of one kind at the start of a text ends where the first other character stands.
Kinds of characters are told apart by their codes.
-/

namespace LiveDoc.Text

/-- Longest match: a run of characters ends where the first other character stands. -/
theorem span_append {p : Char → Bool} {run after : List Char} (hrun : ∀ c ∈ run, p c = true)
    (hafter : ∀ c ∈ after.head?, p c = false) : (run ++ after).span p = (run, after) := by
  rw [List.span_eq_takeWhile_dropWhile, List.takeWhile_append_of_pos hrun,
    List.dropWhile_append_of_pos hrun]
  cases after with
  | nil => simp
  | cons c rest => simp [hafter c rfl]

/-- What a run of `p`-characters takes and what it leaves make up the text, and no `p`-character
comes first in what it leaves. -/
theorem span_sound (p : Char → Bool) (s : List Char) :
    s = (s.span p).1 ++ (s.span p).2 ∧ (∀ c ∈ (s.span p).1, p c = true) ∧
      ∀ c ∈ (s.span p).2.head?, p c = false := by
  rw [List.span_eq_takeWhile_dropWhile]
  refine ⟨List.takeWhile_append_dropWhile.symm, List.all_eq_true.mp List.all_takeWhile, ?_⟩
  intro c hc
  cases hdrop : s.dropWhile p with
  | nil =>
    rw [hdrop] at hc
    cases hc
  | cons d rest =>
    have hne : s.dropWhile p ≠ [] := by simp [hdrop]
    have hhead := List.head_dropWhile_not p hne
    simp only [hdrop] at hc hhead
    obtain rfl : d = c := Option.some.inj hc
    exact hhead

/-! ## Letters and digits -/

theorem isDigit_iff {c : Char} : c.isDigit = true ↔ 48 ≤ c.toNat ∧ c.toNat ≤ 57 := by
  have hcodes : c.isDigit = (decide (48 ≤ c.val) && decide (c.val ≤ 57)) := rfl
  rw [hcodes, Bool.and_eq_true, decide_eq_true_eq, decide_eq_true_eq]
  exact Iff.rfl

theorem isAlpha_iff {c : Char} : c.isAlpha = true ↔
    (65 ≤ c.toNat ∧ c.toNat ≤ 90) ∨ (97 ≤ c.toNat ∧ c.toNat ≤ 122) := by
  have hcodes : c.isAlpha = (decide (65 ≤ c.val ∧ c.val ≤ 90) ||
    (decide (97 ≤ c.val) && decide (c.val ≤ 122))) := rfl
  rw [hcodes, Bool.or_eq_true, Bool.and_eq_true, decide_eq_true_eq, decide_eq_true_eq,
    decide_eq_true_eq]
  exact Iff.rfl

/-- No digit is a letter. -/
theorem isAlpha_of_isDigit {c : Char} (h : c.isDigit = true) : c.isAlpha = false := by
  rw [isDigit_iff] at h
  rw [Bool.eq_false_iff, ne_eq, isAlpha_iff]
  omega

end LiveDoc.Text
