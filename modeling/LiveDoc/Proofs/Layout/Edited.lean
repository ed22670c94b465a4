import LiveDoc.Layout.Document
import LiveDoc.Proofs.Text.Slice

/-!
# Texts that were edited from the first place to the last

The edits of a document are applied from the last one to the first. Seen from the first to the last,
each one adds the new content where the old text was.
-/

namespace LiveDoc.Layout

open Text (byteLength byteLength_append)

/-- A text, what becomes of it, and the edits that do this, in the order of their places. -/
inductive Edited : List Char → List Char → List Edit → Prop
  | nil : Edited [] [] []
  | keep {source target : List Char} {edits : List Edit} (text : List Char) :
      Edited source target edits → Edited (source ++ text) (target ++ text) edits
  | edit {source target : List Char} {edits : List Edit} {old : List Char} {e : Edit} :
      Edited source target edits → old ≠ [] →
      e.span = ⟨byteLength source, byteLength (source ++ old)⟩ →
      Edited (source ++ old) (target ++ e.content) (edits ++ [e])

/-- An edit that starts behind all others comes first. -/
theorem foldr_insertEdit_cons {e : Edit} {edits : List Edit} (rest : List Edit)
    (h : ∀ f ∈ edits, f.span.start < e.span.start) :
    edits.foldr insertEdit (e :: rest) = e :: edits.foldr insertEdit rest := by
  induction edits with
  | nil => rfl
  | cons f more ih =>
    rw [List.foldr_cons, List.foldr_cons, ih fun g hg => h g (List.mem_cons_of_mem f hg),
      insertEdit, if_neg (Nat.not_le_of_lt (h f List.mem_cons_self))]

theorem lastFirst_append {e : Edit} {edits : List Edit}
    (h : ∀ f ∈ edits, f.span.start < e.span.start) :
    lastFirst (edits ++ [e]) = e :: lastFirst edits := by
  rw [lastFirst, List.foldr_append]
  exact foldr_insertEdit_cons [] h

namespace Edited

variable {source target : List Char} {edits : List Edit}

theorem start_lt (h : Edited source target edits) :
    ∀ e ∈ edits, e.span.start < byteLength source := by
  induction h with
  | nil => simp
  | keep text _ ih =>
    intro e he
    have hlt := ih e he
    rw [byteLength_append]
    omega
  | @edit source target edits old e _ hne hspan ih =>
    have hpos : 0 < byteLength old := Nat.pos_of_ne_zero (mt Text.byteLength_eq_zero_iff.mp hne)
    intro f hf
    rw [byteLength_append]
    rcases List.mem_append.mp hf with hf | hf
    · have hlt := ih f hf
      omega
    · rw [List.mem_singleton.mp hf, hspan]
      exact Nat.lt_add_of_pos_right hpos

/-- The edits make the second text of the first one, whatever comes behind. -/
theorem applyEdits_append (h : Edited source target edits) (rest : List Char) :
    applyEdits (source ++ rest) (lastFirst edits) = target ++ rest := by
  induction h generalizing rest with
  | nil => rfl
  | keep text _ ih => rw [List.append_assoc, ih, List.append_assoc]
  | @edit source target edits old e h _ hspan ih =>
    have hparts : Text.Parts (source ++ old ++ rest) e.span source old rest :=
      ⟨List.append_assoc _ _ _, by rw [hspan], by rw [hspan, byteLength_append]⟩
    have hlast : lastFirst (edits ++ [e]) = e :: lastFirst edits :=
      lastFirst_append fun f hf => by rw [hspan]; exact h.start_lt f hf
    rw [hlast, applyEdits, List.foldl_cons, if_pos hparts.stop_le, Text.splice_parts hparts,
      ← applyEdits, List.append_assoc, ih, List.append_assoc]

end Edited

end LiveDoc.Layout
