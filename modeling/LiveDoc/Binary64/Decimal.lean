import LiveDoc.Binary64.Basic

/-!
# Decimal texts of floating point numbers

Writing: `shortest` finds the fewest decimal digits that read back as the number, and of these the
digits nearest to it; a tie goes up. `text` prints them without an exponent, whatever their size.

Reading: `ofDecimal` takes `digits * 10 ^ scale` to the nearest number, a tie to the one with an
even mantissa.

All arithmetic is exact, on natural numbers.
-/

namespace LiveDoc.Binary64

/-! ## Writing -/

/-- A number as `digits * 10 ^ scale`. -/
structure Digits where
  digits : Nat
  scale : Int
  deriving DecidableEq, Repr

/-- The quotient `num / den` that stands for the value `m * 2 ^ e / 10 ^ g`, as a pair. -/
def scaled (m : Nat) (e g : Int) : Nat × Nat :=
  (m * Nat.pow 2 e.toNat * Nat.pow 10 (-g).toNat, Nat.pow 2 (-e).toNat * Nat.pow 10 g.toNat)

/-- Whether `10 ^ g` is at most `m * 2 ^ e`. -/
def reaches (m : Nat) (e g : Int) : Bool :=
  let (num, den) := scaled m e g
  den ≤ num

/-- The `p` with `10 ^ (p - 1) ≤ m * 2 ^ e < 10 ^ p`, for `m` not zero: an estimate from the
binary length, which is off by at most one, set right. -/
def decimalLength (m : Nat) (e : Int) : Int :=
  let guess := ((Nat.log2 m : Int) + e) * 30103 / 100000 + 1
  if reaches m e guess then guess + 1
  else if reaches m e (guess - 1) then guess
  else guess - 1

/-- The numbers around `m * 2 ^ e` that read back as it are those between `low` and `high`, in
quarters of the last place; the ends read back when the mantissa is even. -/
structure Neighbourhood where
  low : Nat
  value : Nat
  high : Nat
  exponent : Int
  closed : Bool

/-- The neighbourhood of a finite number. Below a power of two the next number is half as far. -/
def neighbourhood (x : Binary64) : Neighbourhood :=
  let m := x.magnitude
  let v := 4 * m.mantissa
  ⟨if x.fraction = 0 && x.biasedExponent > 1 then v - 1 else v - 2, v, v + 2, m.exponent - 2,
    m.mantissa % 2 = 0⟩

/-- Whether `d * 10 ^ g` lies in the neighbourhood. -/
def Neighbourhood.holds (n : Neighbourhood) (d : Nat) (g : Int) : Bool :=
  let (low, den) := scaled n.low n.exponent g
  let (high, _) := scaled n.high n.exponent g
  if n.closed then low ≤ d * den && d * den ≤ high else low < d * den && d * den < high

/-- The better of the two points of the grid `10 ^ g` next to the value, if one reads back: the
nearer one, the upper one when both are equally near. -/
def Neighbourhood.point? (n : Neighbourhood) (g : Int) : Option Nat :=
  let (num, den) := scaled n.value n.exponent g
  let below := num / den
  let above := below + 1
  let upNearer := den ≤ 2 * (num - below * den)
  if n.holds below g then
    if n.holds above g && upNearer then some above else some below
  else if n.holds above g then some above
  else none

/-- The first grid with a point that reads back, from `count` digits on; `fuel` grids are tried. -/
def Neighbourhood.search (n : Neighbourhood) (length : Int) : (count fuel : Nat) → Digits
  | count, 0 => ⟨n.value, length - count⟩
  | count, fuel + 1 =>
    let g := length - count
    match n.point? g with
    | some d => ⟨d, g⟩
    | none => n.search length (count + 1) fuel

/-- The fewest digits that read back as a finite number other than zero. Seventeen always do. -/
def shortest (x : Binary64) : Digits :=
  let m := x.magnitude
  (neighbourhood x).search (decimalLength m.mantissa m.exponent) 1 17

/-- The decimal digits of a number, most significant first. -/
def digitChars (n : Nat) : List Char := (toString n).toList

/-- Drops zeros at the end of `digits` that stand behind the point. -/
def dropZeros : Nat → Digits → Digits
  | 0, d => d
  | fuel + 1, d =>
    if d.scale < 0 && d.digits % 10 = 0 && d.digits ≠ 0 then
      dropZeros fuel ⟨d.digits / 10, d.scale + 1⟩
    else d

/-- Digits written out without an exponent. -/
def Digits.positional (d : Digits) : List Char :=
  let d := dropZeros 20 d
  let cs := digitChars d.digits
  if d.scale ≥ 0 then cs ++ List.replicate d.scale.toNat '0'
  else
    let places := (-d.scale).toNat
    if cs.length > places then cs.take (cs.length - places) ++ '.' :: cs.drop (cs.length - places)
    else '0' :: '.' :: List.replicate (places - cs.length) '0' ++ cs

/-- The text of a number: `NaN`, `inf`, or shortest digits without an exponent, after a sign. -/
def text (x : Binary64) : List Char :=
  if x.isNaN then ['N', 'a', 'N']
  else
    (if x.isNegative then ['-'] else []) ++
      (if x.isInfinite then ['i', 'n', 'f']
        else if x.unsignedBits = 0 then ['0']
        else (shortest x).positional)

/-! ## Reading -/

/-- `num / den` rounded to a natural number, a half to the even neighbour. -/
def roundHalfEven (num den : Nat) : Nat :=
  let q := num / den
  let r := num % den
  if 2 * r > den || (2 * r = den && q % 2 = 1) then q + 1 else q

/-- The `e` with `2 ^ e ≤ num / den < 2 ^ (e + 1)`, for `num` and `den` not zero. -/
def binaryLength (num den : Nat) : Int :=
  let guess : Int := (Nat.log2 num : Int) - Nat.log2 den
  if den * Nat.pow 2 guess.toNat ≤ num * Nat.pow 2 (-guess).toNat then guess else guess - 1

/-- The number nearest to `num / den`, for `num` and `den` not zero. The unsigned bits grow by one
from each number to the next, so a mantissa rounded up to its power of two carries into the
exponent by itself. -/
def ofRatio (negative : Bool) (num den : Nat) : Binary64 :=
  let last := max (binaryLength num den - 52) (-1074)
  let mantissa := roundHalfEven (num * Nat.pow 2 (-last).toNat) (den * Nat.pow 2 last.toNat)
  let unsigned :=
    if mantissa < Nat.pow 2 52 then mantissa
    else (last + 1074).toNat * Nat.pow 2 52 + mantissa
  if unsigned ≥ 2047 * Nat.pow 2 52 then infinity negative else ofParts negative unsigned

/-- The number nearest to `digits * 10 ^ scale`. Scales so large that only infinity or zero remain
are decided by the count of digits alone. -/
def ofDecimal (negative : Bool) (digits : Nat) (scale : Int) : Binary64 :=
  if digits = 0 then zero negative
  else
    let length := scale + (digitChars digits).length
    if length > 400 then infinity negative
    else if length < -400 then zero negative
    else ofRatio negative (digits * Nat.pow 10 scale.toNat) (Nat.pow 10 (-scale).toNat)

end LiveDoc.Binary64
