/-!
# Spans

Places in a text are counted in bytes of its UTF-8 form. A `Span` is a half-open range of such
places. `dropBytes` and `takeBytes` answer only when the place lies on a character boundary inside
the text, so `slice` never cuts a character, and `splice` replaces a span only when it can be cut
out.
-/

namespace LiveDoc.Text

/-- A half-open range of byte places. -/
structure Span where
  start : Nat
  stop : Nat
  deriving DecidableEq, Repr

/-- The span moved to the right. -/
def Span.shift (s : Span) (offset : Nat) : Span := ⟨s.start + offset, s.stop + offset⟩

/-- Whether a place lies in the span. -/
def Span.contains (s : Span) (place : Nat) : Bool := s.start ≤ place && place < s.stop

/-- The length of a text in bytes. -/
def byteLength : List Char → Nat
  | [] => 0
  | c :: rest => c.utf8Size + byteLength rest

/-- The text behind its first `n` bytes, if these end on a character boundary. -/
def dropBytes (n : Nat) : List Char → Option (List Char)
  | [] => if n = 0 then some [] else none
  | c :: rest =>
    if n = 0 then some (c :: rest)
    else if c.utf8Size ≤ n then dropBytes (n - c.utf8Size) rest
    else none

/-- The first `n` bytes of a text, if these end on a character boundary. -/
def takeBytes (n : Nat) : List Char → Option (List Char)
  | [] => if n = 0 then some [] else none
  | c :: rest =>
    if n = 0 then some []
    else if c.utf8Size ≤ n then (takeBytes (n - c.utf8Size) rest).map (c :: ·)
    else none

/-- The text in a span, if both its ends are character boundaries in order. -/
def slice (s : List Char) (span : Span) : Option (List Char) :=
  if span.start ≤ span.stop then
    (dropBytes span.start s).bind (takeBytes (span.stop - span.start))
  else none

/-- The text with `content` in place of a span; a span that cannot be cut out changes nothing. -/
def splice (s : List Char) (span : Span) (content : List Char) : List Char :=
  if span.start ≤ span.stop then
    match takeBytes span.start s, dropBytes span.stop s with
    | some before, some after => before ++ content ++ after
    | _, _ => s
  else s

/-- The lengths of two texts add up. -/
theorem byteLength_append (s t : List Char) :
    byteLength (s ++ t) = byteLength s + byteLength t := by
  induction s with
  | nil => simp [byteLength]
  | cons c rest ih => simp [byteLength, ih, Nat.add_assoc]

/-- Cutting behind a prefix gives what follows it. -/
theorem dropBytes_append (s t : List Char) : dropBytes (byteLength s) (s ++ t) = some t := by
  induction s with
  | nil => cases t <;> simp [byteLength, dropBytes]
  | cons c rest ih =>
    have hc : c.utf8Size ≠ 0 := Nat.ne_of_gt c.utf8Size_pos
    simp [byteLength, dropBytes, hc, ih]

/-- The bytes of a prefix give the prefix. -/
theorem takeBytes_append (s t : List Char) : takeBytes (byteLength s) (s ++ t) = some s := by
  induction s with
  | nil => cases t <;> simp [byteLength, takeBytes]
  | cons c rest ih =>
    have hc : c.utf8Size ≠ 0 := Nat.ne_of_gt c.utf8Size_pos
    simp [byteLength, takeBytes, hc, ih]

end LiveDoc.Text
