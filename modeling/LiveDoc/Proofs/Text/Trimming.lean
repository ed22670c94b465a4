import LiveDoc.Text.Blank
import Mathlib.Data.List.DropRight

/-!
# Trimming a text

Trimming takes blanks from the ends of a text, and nothing is left to trim.
-/

namespace LiveDoc.Text

theorem trimEnd_eq (s : List Char) : trimEnd s = s.rdropWhile isBlank := rfl

theorem trimEnd_append (s t : List Char) :
    trimEnd (s ++ t) = if trimEnd t = [] then trimEnd s else s ++ trimEnd t := by
  simp only [trimEnd, dropEndWhile, List.reverse_append, List.dropWhile_append,
    List.isEmpty_iff, List.reverse_eq_nil_iff]
  split
  · rfl
  · rw [List.reverse_append, List.reverse_reverse]

/-- What is cut off at the end are blanks. -/
theorem exists_eq_trimEnd_append (s : List Char) :
    ∃ blanks, s = trimEnd s ++ blanks ∧ ∀ c ∈ blanks, isBlank c = true := by
  refine ⟨(s.reverse.takeWhile isBlank).reverse, ?_, fun c hc => ?_⟩
  · rw [trimEnd, dropEndWhile, ← List.reverse_append, List.takeWhile_append_dropWhile,
      List.reverse_reverse]
  · exact List.all_eq_true.mp List.all_takeWhile c (List.mem_reverse.mp hc)

/-- Trimming a trimmed text changes nothing. -/
theorem trimEnd_trimEnd (s : List Char) : trimEnd (trimEnd s) = trimEnd s :=
  List.rdropWhile_idempotent isBlank s

/-- A text that ends with no blank is trimmed already. -/
theorem trimEnd_of_getLast? {s : List Char} {c : Char} (h : s.getLast? = some c)
    (hc : isBlank c = false) : trimEnd s = s := by
  obtain ⟨init, rfl⟩ := List.getLast?_eq_some_iff.mp h
  rw [trimEnd_eq, List.rdropWhile_concat_neg _ _ _ (by simp [hc])]

theorem trim_subset (s : List Char) : trim s ⊆ s := fun _ hc =>
  (List.dropWhile_sublist isBlank).subset ((List.rdropWhile_prefix isBlank (trimStart s)).subset hc)

/-- A text that is trimmed starts with no blank. -/
theorem trimStart_trim (s : List Char) : trimStart (trim s) = trim s := by
  obtain ⟨more, hmore⟩ : trim s <+: trimStart s := List.rdropWhile_prefix isBlank (trimStart s)
  cases htrim : trim s with
  | nil => rfl
  | cons c rest =>
    rw [htrim] at hmore
    have hfirst := List.head?_dropWhile_not isBlank s
    rw [show s.dropWhile isBlank = c :: rest ++ more from hmore.symm] at hfirst
    have hc : isBlank c = false := by simpa using hfirst
    rw [trimStart, List.dropWhile_cons_of_neg (by simp [hc])]

theorem trim_trim (s : List Char) : trim (trim s) = trim s := by
  rw [trim, trimStart_trim]
  exact trimEnd_trimEnd (trimStart s)

end LiveDoc.Text
