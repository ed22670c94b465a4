/-!
# Tables of characters

A property of characters that no rule describes is a table of ranges in ascending order.
-/

namespace LiveDoc.Text

/-- Whether a number lies in one of the ranges, which are in ascending order. -/
def inRanges (n : Nat) : List (Nat × Nat) → Bool
  | [] => false
  | (low, high) :: rest =>
    if n < low then false else if n ≤ high then true else inRanges n rest

end LiveDoc.Text
