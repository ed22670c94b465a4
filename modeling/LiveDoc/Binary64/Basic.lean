/-!
# Binary floating point numbers

A `Binary64` is a floating point number of 64 bits, held as its bits: one sign bit, eleven bits of
exponent, 52 bits of fraction. Nothing here computes with such numbers. They are read from
decimal texts, written as decimal texts, and compared.

* `magnitude` gives a finite number as `mantissa * 2 ^ exponent`;
* `IsNear` holds of numbers at most two places apart in the order of all numbers.
-/

namespace LiveDoc

/-- A floating point number of 64 bits. -/
structure Binary64 where
  bits : UInt64
  deriving DecidableEq, Repr

namespace Binary64

/-- Whether the sign bit is set. -/
def isNegative (x : Binary64) : Bool := x.bits.toNat ≥ Nat.pow 2 63

/-- The number without its sign bit, as a natural number: exponent above fraction. -/
def unsignedBits (x : Binary64) : Nat := x.bits.toNat % Nat.pow 2 63

/-- The eleven exponent bits. -/
def biasedExponent (x : Binary64) : Nat := x.unsignedBits / Nat.pow 2 52

/-- The 52 fraction bits. -/
def fraction (x : Binary64) : Nat := x.unsignedBits % Nat.pow 2 52

/-- Not a number: the highest exponent with a fraction. -/
def isNaN (x : Binary64) : Bool := x.biasedExponent = 2047 && x.fraction ≠ 0

/-- Infinite: the highest exponent without a fraction. -/
def isInfinite (x : Binary64) : Bool := x.biasedExponent = 2047 && x.fraction = 0

/-- A finite number without its sign is `mantissa * 2 ^ exponent`. -/
structure Magnitude where
  mantissa : Nat
  exponent : Int
  deriving DecidableEq, Repr

/-- The magnitude of a finite number. Numbers with exponent bits zero have no hidden bit. -/
def magnitude (x : Binary64) : Magnitude :=
  if x.biasedExponent = 0 then ⟨x.fraction, -1074⟩
  else ⟨x.fraction + Nat.pow 2 52, (x.biasedExponent : Int) - 1075⟩

/-- The number with the given sign and unsigned bits. -/
def ofParts (negative : Bool) (unsigned : Nat) : Binary64 :=
  ⟨UInt64.ofNat ((if negative then Nat.pow 2 63 else 0) + unsigned)⟩

/-- The infinity of a sign. -/
def infinity (negative : Bool) : Binary64 := ofParts negative (2047 * Nat.pow 2 52)

/-- The zero of a sign. -/
def zero (negative : Bool) : Binary64 := ofParts negative 0

/-- The place of a number when all bit patterns are put in order: negative ones come first, the
larger magnitude before the smaller. -/
def place (x : Binary64) : Nat :=
  if x.isNegative then Nat.pow 2 64 - 1 - x.bits.toNat else x.bits.toNat + Nat.pow 2 63

/-- Equality of numbers: the two zeros are equal, and nothing equals what is not a number. -/
def numericEq (x y : Binary64) : Bool :=
  !x.isNaN && !y.isNaN && (x.bits = y.bits || (x.unsignedBits = 0 && y.unsignedBits = 0))

/-- How far apart two numbers stand in the order of bit patterns, which is a ring of `2 ^ 64`
places. -/
def distance (x y : Binary64) : Nat :=
  let ahead := (x.place + Nat.pow 2 64 - y.place) % Nat.pow 2 64
  min ahead (Nat.pow 2 64 - ahead)

/-- Numbers that count as the same: equal, or at most two places apart. -/
def near (x y : Binary64) : Bool := numericEq x y || distance x y ≤ 2

end Binary64

end LiveDoc
