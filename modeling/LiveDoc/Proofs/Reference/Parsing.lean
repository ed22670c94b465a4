import LiveDoc.Proofs.Text.Pieces
import LiveDoc.Proofs.Text.Trimming
import LiveDoc.Reference

/-!
# References that are read

A reference is read from two parts around its one colon: identifiers joined by points, and an
identifier. Blanks around the two parts go. So a reference is read back from what was read
(`parse_written`), and the identifiers have none of the characters that parts or paths are put
together with (`not_mem_of_isIdentifier`).
-/

namespace LiveDoc.Reference

open Text (split trim isIdentifier isLetter isLetterOrNumber)

variable {text : String} {r : Reference}

/-- A character that no identifier is made of. -/
theorem not_mem_of_isIdentifier {name : List Char} {c : Char} (h : isIdentifier name = true)
    (hc : isLetterOrNumber c = false) (hscore : c ≠ '_') : c ∉ name := by
  have hletter : isLetter c = false := by
    simp only [isLetterOrNumber, Bool.or_eq_false_iff] at hc
    exact hc.1.1
  cases name with
  | nil => simp
  | cons first rest =>
    rw [isIdentifier, Bool.and_eq_true, Bool.or_eq_true, List.all_eq_true] at h
    obtain ⟨hfirst, hrest⟩ := h
    rw [List.mem_cons, not_or]
    refine ⟨?_, fun hmem => ?_⟩
    · rintro rfl
      simp [hletter, hscore] at hfirst
    · have hpart := hrest c hmem
      simp [hc, hscore] at hpart

/-- What is read: two parts around the one colon, without the blanks around them. -/
theorem of_parse (h : parse text = .ok r) :
    ∃ module object, split ':' text.toList = [module, object] ∧
      r = ⟨String.ofList (trim module), String.ofList (trim object)⟩ ∧
      (∀ name ∈ split '.' (trim module), isIdentifier name = true) ∧
      isIdentifier (trim object) = true := by
  unfold parse at h
  split at h
  · next module object hsplit =>
    dsimp only at h
    split at h
    · next hnames =>
      rw [Bool.and_eq_true, List.all_eq_true] at hnames
      exact ⟨module, object, hsplit, (Except.ok.inj h).symm, hnames.1, hnames.2⟩
    · cases h
  · cases h

theorem isIdentifier_object (h : parse text = .ok r) : isIdentifier r.object.toList = true := by
  obtain ⟨module, object, -, rfl, -, hobject⟩ := of_parse h
  rwa [String.toList_ofList]

/-- The parts of the module path are identifiers. -/
theorem isIdentifier_segment (h : parse text = .ok r) :
    ∀ name ∈ r.segments, isIdentifier name.toList = true := by
  obtain ⟨module, object, -, rfl, hmodule, -⟩ := of_parse h
  intro name hname
  rw [segments, String.toList_ofList] at hname
  obtain ⟨piece, hpiece, rfl⟩ := List.mem_map.mp hname
  rw [String.toList_ofList]
  exact hmodule piece hpiece

/-- **A reference is read back** from its module path, a colon and its name. -/
theorem parse_written (h : parse text = .ok r) : parse (r.module ++ ":" ++ r.object) = .ok r := by
  obtain ⟨module, object, hsplit, rfl, hmodule, hobject⟩ := of_parse h
  have hcolon : ∀ part ∈ [module, object], ':' ∉ trim part := fun part hpart hmem =>
    Text.not_mem_of_mem_split (hsplit ▸ hpart) (Text.trim_subset part hmem)
  have hparts :
    split ':' (String.ofList (trim module) ++ ":" ++ String.ofList (trim object)).toList =
      [trim module, trim object] := by
    simp only [String.toList_append, String.toList_ofList, List.append_assoc]
    exact (Text.split_piece (hcolon module (by simp)) _).trans
      (congrArg _ (Text.split_of_not_mem (hcolon object (by simp))))
  have hall : (split '.' (trim module)).all isIdentifier = true := List.all_eq_true.mpr hmodule
  rw [parse, hparts]
  simp only [Text.trim_trim, hall, hobject, Bool.and_self, if_true]

/-- A text is refused in one way. -/
theorem eq_of_parse_error {e : Error} (h : parse text = .error e) : e = .invalidReference text := by
  unfold parse at h
  split at h
  · dsimp only at h
    split at h
    · cases h
    · exact (Except.error.inj h).symm
  · exact (Except.error.inj h).symm

end LiveDoc.Reference
