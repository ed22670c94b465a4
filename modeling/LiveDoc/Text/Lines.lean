/-!
# Lines

Two ways to cut a text at line feeds. `split` keeps every piece, so joining the pieces gives the
text back. `lines` reads a text as lines: each loses its line feed and one carriage return before
it, and a line feed at the very end opens no further line.
-/

namespace LiveDoc.Text

/-- The pieces of `s` between occurrences of `sep`: one more than there are occurrences. -/
def split (sep : Char) : List Char → List (List Char)
  | [] => [[]]
  | c :: rest =>
    if c = sep then [] :: split sep rest
    else
      match split sep rest with
      | [] => [[c]]
      | piece :: pieces => (c :: piece) :: pieces

/-- The text without one `c` at its end, if it ends so. -/
def dropFinal (c : Char) : List Char → List Char
  | [] => []
  | [d] => if d = c then [] else [d]
  | d :: e :: rest => d :: dropFinal c (e :: rest)

/-- The pieces between line feeds read as lines: all but the last were ended by a line feed. -/
def endedLines : List (List Char) → List (List Char)
  | [] => []
  | [last] => if last.isEmpty then [] else [last]
  | line :: next :: rest => dropFinal '\r' line :: endedLines (next :: rest)

/-- The lines of a text, without their line ends. -/
def lines (s : List Char) : List (List Char) := endedLines (split '\n' s)

/-- Whether a text ends with the character `c`. -/
def endsWith (c : Char) : List Char → Bool
  | [] => false
  | [d] => d = c
  | _ :: e :: rest => endsWith c (e :: rest)

/-- The pieces `parts` with `sep` between neighbours. -/
def join (sep : List Char) : List (List Char) → List Char
  | [] => []
  | [part] => part
  | part :: next :: rest => part ++ sep ++ join sep (next :: rest)

/-- Splitting leaves at least one piece. -/
theorem split_ne_nil (sep : Char) (s : List Char) : split sep s ≠ [] := by
  cases s with
  | nil => simp [split]
  | cons c rest => unfold split; split <;> (try split) <;> simp

/-- Joining the pieces with the separator gives the text back. -/
theorem join_split (sep : Char) (s : List Char) : join [sep] (split sep s) = s := by
  induction s with
  | nil => rfl
  | cons c rest ih =>
    unfold split
    split
    · next h =>
      cases hp : split sep rest with
      | nil => exact absurd hp (split_ne_nil sep rest)
      | cons piece pieces => rw [hp] at ih; simp [join, ih, h]
    · cases hp : split sep rest with
      | nil => exact absurd hp (split_ne_nil sep rest)
      | cons piece pieces =>
        rw [hp] at ih
        cases pieces with
        | nil => simp_all [join]
        | cons q qs => simp_all [join]

end LiveDoc.Text
