import LiveDoc.Text.Span

/-!
# Cutting texts at byte places

A span can be cut out of a text exactly when the text falls into three parts of the right lengths.
The functions on spans are said here by these parts:

* `takeBytes_eq_some_iff`, `dropBytes_eq_some_iff` — one cut;
* `slice_eq_some_iff` — the part between two cuts;
* `splice_parts` — another content in the place of the middle part;
* `CharAt` — the characters of a text with the places where they start.
-/

namespace LiveDoc.Text

theorem Span.contains_iff {s : Span} {place : Nat} :
    s.contains place = true ↔ s.start ≤ place ∧ place < s.stop := by
  simp [Span.contains]

theorem byteLength_eq_zero_iff {s : List Char} : byteLength s = 0 ↔ s = [] := by
  cases s with
  | nil => simp [byteLength]
  | cons c rest =>
    have hc := c.utf8Size_pos
    simp only [byteLength, reduceCtorEq, iff_false]
    omega

theorem takeBytes_eq_some_iff {n : Nat} {s before : List Char} :
    takeBytes n s = some before ↔ ∃ after, s = before ++ after ∧ byteLength before = n := by
  constructor
  · intro h
    induction s generalizing n before with
    | nil =>
      rw [takeBytes] at h
      split at h
      · next hn =>
        cases h
        exact ⟨[], rfl, hn.symm⟩
      · cases h
    | cons c rest ih =>
      rw [takeBytes] at h
      split at h
      · next hn =>
        cases h
        exact ⟨c :: rest, rfl, hn.symm⟩
      · split at h
        · obtain ⟨more, hmore, rfl⟩ := Option.map_eq_some_iff.mp h
          obtain ⟨after, rfl, hlen⟩ := ih hmore
          refine ⟨after, rfl, ?_⟩
          rw [byteLength, hlen]
          omega
        · cases h
  · rintro ⟨after, rfl, rfl⟩
    exact takeBytes_append before after

theorem dropBytes_eq_some_iff {n : Nat} {s after : List Char} :
    dropBytes n s = some after ↔ ∃ before, s = before ++ after ∧ byteLength before = n := by
  constructor
  · intro h
    induction s generalizing n with
    | nil =>
      rw [dropBytes] at h
      split at h
      · next hn =>
        cases h
        exact ⟨[], rfl, hn.symm⟩
      · cases h
    | cons c rest ih =>
      rw [dropBytes] at h
      split at h
      · next hn =>
        cases h
        exact ⟨[], rfl, hn.symm⟩
      · split at h
        · obtain ⟨before, rfl, hlen⟩ := ih h
          refine ⟨c :: before, rfl, ?_⟩
          rw [byteLength, hlen]
          omega
        · cases h
  · rintro ⟨before, rfl, rfl⟩
    exact dropBytes_append before after

/-- A text falls into the part before a span, the part in it, and the part behind it. -/
structure Parts (s : List Char) (span : Span) (before old after : List Char) : Prop where
  whole : s = before ++ (old ++ after)
  start : span.start = byteLength before
  stop : span.stop = byteLength before + byteLength old

theorem slice_eq_some_iff {s old : List Char} {span : Span} :
    slice s span = some old ↔ ∃ before after, Parts s span before old after := by
  constructor
  · intro h
    unfold slice at h
    split at h
    · next hle =>
      obtain ⟨rest, hdrop, htake⟩ := Option.bind_eq_some_iff.mp h
      obtain ⟨before, hs, hbefore⟩ := dropBytes_eq_some_iff.mp hdrop
      obtain ⟨after, hrest, hold⟩ := takeBytes_eq_some_iff.mp htake
      exact ⟨before, after, by rw [hs, hrest], hbefore.symm, by omega⟩
    · cases h
  · rintro ⟨before, after, rfl, hstart, hstop⟩
    have hlen : span.stop - span.start = byteLength old := by omega
    rw [slice, if_pos (by omega), hstart, dropBytes_append, Option.bind_some, ← hstart, hlen,
      takeBytes_append]

/-- The parts of a text at its cuts. -/
theorem Parts.cuts {s before old after : List Char} {span : Span}
    (h : Parts s span before old after) :
    takeBytes span.start s = some before ∧ dropBytes span.stop s = some after := by
  refine ⟨takeBytes_eq_some_iff.mpr ⟨old ++ after, h.whole, h.start.symm⟩, ?_⟩
  refine dropBytes_eq_some_iff.mpr ⟨before ++ old, ?_, ?_⟩
  · rw [h.whole, List.append_assoc]
  · rw [byteLength_append, h.stop]

theorem Parts.stop_le {s before old after : List Char} {span : Span}
    (h : Parts s span before old after) : span.stop ≤ byteLength s := by
  rw [h.whole, byteLength_append, byteLength_append, h.stop]
  omega

/-- Another content takes the place of the middle part. -/
theorem splice_parts {s before old after : List Char} {span : Span}
    (h : Parts s span before old after) (content : List Char) :
    splice s span content = before ++ content ++ after := by
  have hle : span.start ≤ span.stop := by
    rw [h.start, h.stop]
    omega
  rw [splice, if_pos hle, h.cuts.1, h.cuts.2]

/-- What is cut out of a text is cut out of its front as well, when it ends there. -/
theorem slice_front {s t old : List Char} {span : Span} (h : slice (s ++ t) span = some old)
    (hstop : span.stop ≤ byteLength s) : slice s span = some old := by
  obtain ⟨before, after, hparts⟩ := slice_eq_some_iff.mp h
  have hwhole := hparts.whole
  rw [← List.append_assoc, List.append_eq_append_iff] at hwhole
  rcases hwhole with ⟨more, hs, _⟩ | ⟨more, hfront, _⟩
  · -- the front ends inside of the three parts, but not before the span does
    have hlen := congrArg byteLength hs
    have hstop' := hparts.stop
    rw [byteLength_append, byteLength_append] at hlen
    obtain rfl : more = [] := byteLength_eq_zero_iff.mp (by omega)
    rw [List.append_nil] at hs
    exact slice_eq_some_iff.mpr ⟨before, [], by rw [List.append_nil, hs], hparts.start, hparts.stop⟩
  · exact slice_eq_some_iff.mpr ⟨before, more, by rw [hfront, List.append_assoc], hparts.start,
      hparts.stop⟩

/-! ## Characters at their places -/

/-- A character starts at a place of a text. -/
def CharAt (s : List Char) (place : Nat) (c : Char) : Prop :=
  ∃ front rest, s = front ++ c :: rest ∧ byteLength front = place

theorem not_charAt_nil (place : Nat) (c : Char) : ¬ CharAt [] place c := by
  rintro ⟨front, rest, h, -⟩
  exact List.append_ne_nil_of_right_ne_nil front (List.cons_ne_nil c rest) h.symm

theorem charAt_append {s t : List Char} {place : Nat} {c : Char} : CharAt (s ++ t) place c ↔
    CharAt s place c ∨ ∃ p, place = byteLength s + p ∧ CharAt t p c := by
  constructor
  · rintro ⟨front, rest, h, rfl⟩
    rcases List.append_eq_append_iff.mp h with ⟨more, rfl, ht⟩ | ⟨more, hs, hrest⟩
    · exact .inr ⟨byteLength more, byteLength_append s more, more, rest, ht, rfl⟩
    · cases more with
      | nil =>
        rw [List.append_nil] at hs
        exact .inr ⟨0, by rw [hs]; rfl, [], rest, hrest.symm, rfl⟩
      | cons d more =>
        obtain ⟨rfl, -⟩ := List.cons.inj hrest
        exact .inl ⟨front, more, hs, rfl⟩
  · rintro (⟨front, rest, rfl, hplace⟩ | ⟨p, rfl, front, rest, rfl, rfl⟩)
    · exact ⟨front, rest ++ t, by simp, hplace⟩
    · exact ⟨s ++ front, rest, by simp, byteLength_append s front⟩

theorem charAt_cons {d : Char} {s : List Char} {place : Nat} {c : Char} : CharAt (d :: s) place c ↔
    (place = 0 ∧ c = d) ∨ ∃ p, place = d.utf8Size + p ∧ CharAt s p c := by
  constructor
  · rintro ⟨_ | ⟨e, front⟩, rest, h, rfl⟩
    · exact .inl ⟨rfl, (List.cons.inj h).1.symm⟩
    · obtain ⟨rfl, rfl⟩ := List.cons.inj h
      exact .inr ⟨byteLength front, rfl, front, rest, rfl, rfl⟩
  · rintro (⟨rfl, rfl⟩ | ⟨p, rfl, front, rest, rfl, rfl⟩)
    · exact ⟨[], s, rfl, rfl⟩
    · exact ⟨d :: front, rest, rfl, rfl⟩

theorem CharAt.stop_le {s : List Char} {place : Nat} {c : Char} (h : CharAt s place c) :
    place + c.utf8Size ≤ byteLength s := by
  obtain ⟨front, rest, rfl, rfl⟩ := h
  rw [byteLength_append, byteLength]
  omega

theorem CharAt.lt {s : List Char} {place : Nat} {c : Char} (h : CharAt s place c) :
    place < byteLength s := by
  have hpos := c.utf8Size_pos
  have hle := h.stop_le
  omega

theorem CharAt.head? {s : List Char} {c : Char} (h : CharAt s 0 c) : s.head? = some c := by
  obtain ⟨front, rest, rfl, hfront⟩ := h
  rw [byteLength_eq_zero_iff.mp hfront]
  rfl

/-- The characters of a text stand in front of a span, in it, or behind it. -/
theorem Parts.charAt_iff {s before old after : List Char} {span : Span}
    (h : Parts s span before old after) {place : Nat} {c : Char} : CharAt s place c ↔
      CharAt before place c ∨ (∃ p, place = span.start + p ∧ CharAt old p c) ∨
        ∃ p, place = span.stop + p ∧ CharAt after p c := by
  rw [h.whole, h.start, h.stop, charAt_append]
  refine or_congr_right ⟨?_, ?_⟩
  · rintro ⟨p, rfl, hp⟩
    rcases charAt_append.mp hp with hp | ⟨q, rfl, hq⟩
    · exact .inl ⟨p, rfl, hp⟩
    · exact .inr ⟨q, (Nat.add_assoc ..).symm, hq⟩
  · rintro (⟨p, rfl, hp⟩ | ⟨p, rfl, hp⟩)
    · exact ⟨p, rfl, charAt_append.mpr (.inl hp)⟩
    · exact ⟨byteLength old + p, Nat.add_assoc .., charAt_append.mpr (.inr ⟨p, rfl, hp⟩)⟩

/-- Behind a cut that is not the end of a text there is a character. -/
theorem exists_charAt (front : List Char) {rest : List Char} (h : rest ≠ []) :
    ∃ c, CharAt (front ++ rest) (byteLength front) c := by
  obtain ⟨c, more, rfl⟩ := List.exists_cons_of_ne_nil h
  exact ⟨c, front, more, rfl, rfl⟩

theorem byteLength_le_of_isPrefix {s t : List Char} (h : s <+: t) :
    byteLength s ≤ byteLength t := by
  obtain ⟨more, rfl⟩ := h
  rw [byteLength_append]
  omega

/-- In front of a cut there is a character, and it is behind every earlier cut. -/
theorem exists_charAt_before {s early front : List Char} (hearly : early <+: s)
    (hfront : front <+: s) (hlt : byteLength early < byteLength front) : ∃ p c, CharAt s p c ∧
      p + c.utf8Size = byteLength front ∧ byteLength early ≤ p := by
  rcases List.eq_nil_or_concat front with rfl | ⟨init, c, rfl⟩
  · exact absurd hlt (Nat.not_lt_zero _)
  rw [List.concat_eq_append] at hfront hlt ⊢
  have hinit : early <+: init := by
    rcases List.prefix_or_prefix_of_prefix hearly hfront with h | h
    · rcases List.prefix_concat_iff.mp h with rfl | h
      · exact absurd hlt (Nat.lt_irrefl _)
      · exact h
    · exact absurd (byteLength_le_of_isPrefix h) (Nat.not_le.mpr hlt)
  obtain ⟨rest, rfl⟩ := hfront
  refine ⟨byteLength init, c, ⟨init, rest, by simp, rfl⟩, ?_, byteLength_le_of_isPrefix hinit⟩
  rw [byteLength_append]
  rfl

end LiveDoc.Text
