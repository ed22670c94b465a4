import LiveDoc.Proofs.Item.Reading
import LiveDoc.Proofs.Text.Encoding

/-!
# Comments and strings byte by byte

The end of a comment or a string can be found among the bytes of a text, by steps of one byte, and
of two over a mark of two characters or over a backslash and what it takes with it. Such a step can
land inside of a character, or behind the end of the text. Still the places where these scans end
are those where the readers of characters do, whatever the text (`commentSteps_encode`,
`stringStop_encode`): the marks are ASCII characters, and no byte inside of a character looks like
one.
-/

namespace LiveDoc.Item.Piece

open String (utf8EncodeChar)
open Text (encode encode_cons length_encode byteLength exists_encodeChar eq_of_mem_encodeChar
  head?_encode)

/-! ## The scans -/

/-- How far a scan for the end of a block comment goes; `depth` comments are open. -/
def commentSteps : (depth : Nat) → List UInt8 → Nat
  | _, [] => 0
  | _, [_] => 1
  | depth, b :: c :: rest =>
    if b = '/'.toUInt8 ∧ c = '*'.toUInt8 then 2 + commentSteps (depth + 1) rest
    else if b = '*'.toUInt8 ∧ c = '/'.toUInt8 then
      if depth ≤ 1 then 2 else 2 + commentSteps (depth - 1) rest
    else 1 + commentSteps depth (c :: rest)

/-- How far a scan for the end of a string goes. A backslash at the end of the text takes it one
byte too far. -/
def stringSteps : List UInt8 → Nat
  | [] => 0
  | [b] => if b = '\\'.toUInt8 then 2 else 1
  | b :: c :: rest =>
    if b = '\\'.toUInt8 then 2 + stringSteps rest
    else if b = '"'.toUInt8 then 1
    else 1 + stringSteps (c :: rest)

/-- Where a scan of a string is stopped: at the end of the text at the latest. -/
def stringStop (bytes : List UInt8) : Nat := min (stringSteps bytes) bytes.length

/-! ## Comments -/

theorem commentSteps_open (depth : Nat) (s : List Char) :
    commentSteps depth (encode ('/' :: '*' :: s)) = 2 + commentSteps (depth + 1) (encode s) := rfl

theorem commentSteps_close (depth : Nat) (s : List Char) :
    commentSteps depth (encode ('*' :: '/' :: s)) =
      if depth ≤ 1 then 2 else 2 + commentSteps (depth - 1) (encode s) := rfl

/-- A byte that starts no mark with the byte behind it is stepped over. -/
theorem commentSteps_cons {depth : Nat} {b : UInt8} {rest : List UInt8}
    (hopen : ¬ (b = '/'.toUInt8 ∧ rest.head? = some '*'.toUInt8))
    (hclose : ¬ (b = '*'.toUInt8 ∧ rest.head? = some '/'.toUInt8)) :
    commentSteps depth (b :: rest) = 1 + commentSteps depth rest := by
  cases rest with
  | nil => rfl
  | cons c rest =>
    rw [List.head?_cons, Option.some.injEq] at hopen hclose
    rw [commentSteps, if_neg hopen, if_neg hclose]

/-- Bytes that are no marks are stepped over. -/
theorem commentSteps_append {depth : Nat} {bytes : List UInt8} (rest : List UInt8)
    (h : ∀ b ∈ bytes, b ≠ '/'.toUInt8 ∧ b ≠ '*'.toUInt8) :
    commentSteps depth (bytes ++ rest) = bytes.length + commentSteps depth rest := by
  induction bytes with
  | nil => simp
  | cons b more ih =>
    obtain ⟨hb, hmore⟩ := List.forall_mem_cons.mp h
    rw [List.cons_append, commentSteps_cons (fun hopen => hb.1 hopen.1)
      (fun hclose => hb.2 hclose.1), ih hmore, List.length_cons]
    omega

/-- A character that starts no mark is stepped over, byte by byte. -/
theorem commentSteps_encode_cons {depth : Nat} {c : Char} {s : List Char}
    (hopen : ¬ (c = '/' ∧ s.head? = some '*')) (hclose : ¬ (c = '*' ∧ s.head? = some '/')) :
    commentSteps depth (encode (c :: s)) = c.utf8Size + commentSteps depth (encode s) := by
  rw [encode_cons]
  by_cases hslash : c = '/'
  · subst hslash
    refine commentSteps_cons (fun h => hopen ⟨rfl, ?_⟩) (fun h => absurd h.1 (by decide))
    exact (head?_encode (by decide)).mp h.2
  by_cases hstar : c = '*'
  · subst hstar
    refine commentSteps_cons (fun h => absurd h.1 (by decide)) (fun h => hclose ⟨rfl, ?_⟩)
    exact (head?_encode (by decide)).mp h.2
  rw [commentSteps_append, String.length_utf8EncodeChar]
  refine fun b hb => ⟨?_, ?_⟩
  · rintro rfl
    exact hslash (eq_of_mem_encodeChar (by decide) hb)
  · rintro rfl
    exact hstar (eq_of_mem_encodeChar (by decide) hb)

/-- **The byte scan of a block comment ends where the comment does.** -/
theorem commentSteps_encode (depth : Nat) (s : List Char) :
    commentSteps depth (encode s) = byteLength (blockRest depth s).1 := by
  induction depth, s using blockRest.induct with
  | case1 => rfl
  | case2 depth c => exact commentSteps_encode_cons (s := []) (by simp) (by simp)
  | case3 depth c d rest hopen _ _ _ ih =>
    obtain ⟨rfl, rfl⟩ : c = '/' ∧ d = '*' := by simpa using hopen
    rw [commentSteps_open, ih, blockRest_open, byteLength, byteLength, ← Nat.add_assoc]
    rfl
  | case4 depth c d rest _ hclose hdepth =>
    obtain ⟨rfl, rfl⟩ : c = '*' ∧ d = '/' := by simpa using hclose
    rw [commentSteps_close, if_pos hdepth, blockRest_last hdepth]
    rfl
  | case5 depth c d rest _ hclose hdepth _ _ _ ih =>
    obtain ⟨rfl, rfl⟩ : c = '*' ∧ d = '/' := by simpa using hclose
    rw [commentSteps_close, if_neg hdepth, ih, blockRest_close hdepth, byteLength, byteLength,
      ← Nat.add_assoc]
    rfl
  | case6 depth c d rest hopen hclose _ _ _ ih =>
    have hopen' : ¬ (c = '/' ∧ d = '*') := by simpa using hopen
    have hclose' : ¬ (c = '*' ∧ d = '/') := by simpa using hclose
    rw [commentSteps_encode_cons (by simpa using hopen') (by simpa using hclose'), ih,
      blockRest_plain depth hopen' hclose', byteLength]

/-! ## Strings -/

theorem stringSteps_quote (rest : List UInt8) : stringSteps ('"'.toUInt8 :: rest) = 1 := by
  cases rest <;> rfl

/-- A byte that is no mark is stepped over. -/
theorem stringSteps_cons {b : UInt8} (hquote : b ≠ '"'.toUInt8) (hslash : b ≠ '\\'.toUInt8)
    (rest : List UInt8) : stringSteps (b :: rest) = 1 + stringSteps rest := by
  cases rest with
  | nil => exact if_neg hslash
  | cons c rest => rw [stringSteps, if_neg hslash, if_neg hquote]

theorem stringSteps_append {bytes : List UInt8} (rest : List UInt8)
    (h : ∀ b ∈ bytes, b ≠ '"'.toUInt8 ∧ b ≠ '\\'.toUInt8) :
    stringSteps (bytes ++ rest) = bytes.length + stringSteps rest := by
  induction bytes with
  | nil => simp
  | cons b more ih =>
    obtain ⟨hb, hmore⟩ := List.forall_mem_cons.mp h
    rw [List.cons_append, stringSteps_cons hb.1 hb.2, ih hmore, List.length_cons]
    omega

/-- A character that is no mark is stepped over, byte by byte. -/
theorem stringSteps_encode_cons {c : Char} (hquote : c ≠ '"') (hslash : c ≠ '\\') (s : List Char) :
    stringSteps (encode (c :: s)) = c.utf8Size + stringSteps (encode s) := by
  rw [encode_cons, stringSteps_append, String.length_utf8EncodeChar]
  refine fun b hb => ⟨?_, ?_⟩
  · rintro rfl
    exact hquote (eq_of_mem_encodeChar (by decide) hb)
  · rintro rfl
    exact hslash (eq_of_mem_encodeChar (by decide) hb)

/-- The step over a backslash goes to the second byte of the character behind it; the other bytes of
the character are stepped over one by one. -/
theorem stringSteps_escape (d : Char) (s : List Char) :
    stringSteps (encode ('\\' :: d :: s)) = 1 + (d.utf8Size + stringSteps (encode s)) := by
  obtain ⟨b, more, hbytes, hmore⟩ := exists_encodeChar d
  have hplain : ∀ x ∈ more, x ≠ '"'.toUInt8 ∧ x ≠ '\\'.toUInt8 := by
    intro x hx
    have hhigh := hmore x hx
    constructor <;> rintro rfl <;> exact absurd hhigh (by decide)
  have hsteps : stringSteps (encode ('\\' :: d :: s)) = 2 + stringSteps (more ++ encode s) := by
    rw [encode_cons, encode_cons, hbytes]
    rfl
  rw [hsteps, stringSteps_append _ hplain, ← String.length_utf8EncodeChar, hbytes, List.length_cons]
  omega

/-- **The byte scan of a string is stopped where the string ends.** -/
theorem stringStop_encode (s : List Char) :
    stringStop (encode s) = byteLength (stringRest s).1 := by
  rw [stringStop, length_encode]
  induction s using stringRest.induct with
  | case1 => rfl
  | case2 rest =>
    have hsteps : stringSteps (encode ('"' :: rest)) = 1 := stringSteps_quote (encode rest)
    rw [hsteps, stringRest_quote, byteLength]
    exact Nat.min_eq_left (Nat.le_add_right 1 _)
  | case3 => rfl
  | case4 d rest _ _ _ _ ih =>
    have hslash : Char.utf8Size '\\' = 1 := rfl
    rw [stringSteps_escape, stringRest_escape]
    simp only [byteLength, ← ih, hslash]
    omega
  | case5 c rest hquote hslash _ _ _ ih =>
    rw [stringSteps_encode_cons hquote hslash, stringRest_plain hquote hslash]
    simp only [byteLength, ← ih]
    omega

end LiveDoc.Item.Piece
