import LiveDoc.Text.Span
import LiveDoc.Text.Utf8

/-!
# The bytes of a text

An ASCII character is a single byte, its code, and no byte of another character is an ASCII code
(`encodeChar_cases`). So a reader that looks for ASCII marks among bytes cannot find one inside of a
character.
-/

namespace LiveDoc.Text

open String (utf8EncodeChar)

theorem encode_cons (c : Char) (s : List Char) : encode (c :: s) = utf8EncodeChar c ++ encode s :=
  List.flatMap_cons

theorem length_encode (s : List Char) : (encode s).length = byteLength s := by
  induction s with
  | nil => rfl
  | cons c rest ih =>
    rw [encode_cons, List.length_append, ih, String.length_utf8EncodeChar, byteLength]

/-- **A character is an ASCII byte, or has no ASCII byte.** -/
theorem encodeChar_cases (c : Char) : (c.toNat < 128 ∧ utf8EncodeChar c = [c.toUInt8]) ∨
    (128 ≤ c.toNat ∧ ∀ b ∈ utf8EncodeChar c, 128 ≤ b.toNat) := by
  rcases Nat.lt_or_ge c.toNat 128 with hascii | hwide
  · exact .inl ⟨hascii, if_pos (Nat.le_of_lt_succ hascii)⟩
  · have hne : ¬ c.val.toNat ≤ 127 := Nat.not_le.mpr hwide
    have hhigh : ∀ n, n < 128 → 128 ≤ (UInt8.ofNat (n + 128)).toNat := by
      intro n hn
      rw [UInt8.toNat_ofNat']
      omega
    refine .inr ⟨hwide, ?_⟩
    unfold utf8EncodeChar
    dsimp only
    rw [if_neg hne]
    grind

/-- Behind its first byte a character has no ASCII byte. -/
theorem exists_encodeChar (c : Char) :
    ∃ b more, utf8EncodeChar c = b :: more ∧ ∀ x ∈ more, 128 ≤ x.toNat := by
  rcases encodeChar_cases c with ⟨-, hascii⟩ | ⟨-, hwide⟩
  · exact ⟨c.toUInt8, [], hascii, nofun⟩
  · have hlength := String.length_utf8EncodeChar c
    cases hbytes : utf8EncodeChar c with
    | nil =>
      rw [hbytes] at hlength
      exact absurd hlength.symm (Nat.ne_of_gt c.utf8Size_pos)
    | cons b more =>
      rw [hbytes] at hwide
      exact ⟨b, more, rfl, fun x hx => hwide x (List.mem_cons_of_mem b hx)⟩

/-- An ASCII byte of a character is the character. -/
theorem eq_of_mem_encodeChar {c mark : Char} (hmark : mark.toNat < 128)
    (h : mark.toUInt8 ∈ utf8EncodeChar c) : c = mark := by
  have hcode : ∀ d : Char, d.toNat < 128 → d.toUInt8.toNat = d.toNat := by
    intro d hd
    change d.val.toUInt8.toNat = d.val.toNat
    rw [UInt32.toNat_toUInt8]
    exact Nat.mod_eq_of_lt (Nat.lt_trans hd (by decide))
  rcases encodeChar_cases c with ⟨hc, hbytes⟩ | ⟨-, hbytes⟩
  · rw [hbytes, List.mem_singleton] at h
    rw [← Char.toNat_inj, ← hcode c hc, ← h, hcode mark hmark]
  · have hhigh := hbytes _ h
    rw [hcode mark hmark] at hhigh
    omega

/-- Bytes start with an ASCII mark when the text does. -/
theorem head?_encode {mark : Char} (hmark : mark.toNat < 128) {s : List Char} :
    (encode s).head? = some mark.toUInt8 ↔ s.head? = some mark := by
  cases s with
  | nil => simp [encode]
  | cons c rest =>
    obtain ⟨b, more, hbytes, -⟩ := exists_encodeChar c
    rw [encode_cons, hbytes, List.cons_append, List.head?_cons, List.head?_cons, Option.some.injEq,
      Option.some.injEq]
    constructor
    · rintro rfl
      exact eq_of_mem_encodeChar hmark (hbytes ▸ List.mem_cons_self)
    · rintro rfl
      rcases encodeChar_cases c with ⟨-, hascii⟩ | ⟨hwide, -⟩
      · rw [hascii] at hbytes
        exact (List.cons.inj hbytes).1.symm
      · omega

end LiveDoc.Text
