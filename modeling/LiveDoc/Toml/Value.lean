import LiveDoc.Store
import LiveDoc.Text.Lines

/-!
# TOML values

The values of a configuration file, and how those without brackets or quotes are told apart by their
text: booleans, integers, floating point numbers, and dates and times.
-/

namespace LiveDoc.Toml

/-- A value. Floating point numbers, dates and times are kept as they are written. -/
inductive Value where
  | string (text : String)
  | integer (n : Int)
  | float (text : String)
  | boolean (b : Bool)
  | moment (text : String)
  | array (elements : List Value)
  | table (entries : List (String × Value))
  deriving Repr

/-! ## Numbers -/

/-- The digits of a number. Underscores stand between digits only. -/
def digits? (p : Char → Bool) (s : List Char) : Option (List Char) :=
  if (Text.split '_' s).all fun part => part ≠ [] && part.all p then some (s.filter (· ≠ '_'))
  else none

/-- The value of a digit in bases up to sixteen. -/
def digitValue (c : Char) : Nat :=
  if c.isDigit then c.toNat - 48 else if 'a' ≤ c then c.toNat - 87 else c.toNat - 55

/-- The number that digits stand for in a base. -/
def number (base : Nat) (digits : List Char) : Nat :=
  digits.foldl (fun n c => base * n + digitValue c) 0

/-- Whether a character is a digit of a base. -/
def isDigitOf (base : Nat) (c : Char) : Bool :=
  (c.isDigit || ('a' ≤ c && c ≤ 'f') || ('A' ≤ c && c ≤ 'F')) && digitValue c < base

/-- A decimal number, which has no zero before other digits. -/
def decimal? (s : List Char) : Option Nat :=
  match digits? Char.isDigit s with
  | some ('0' :: _ :: _) => none
  | some digits => some (number 10 digits)
  | none => none

/-- The text behind a sign, and whether the sign is a minus. -/
def unsigned : List Char → Bool × List Char
  | '-' :: rest => (true, rest)
  | '+' :: rest => (false, rest)
  | rest => (false, rest)

/-- An integer, which has at most 128 bits. -/
def integer? (s : List Char) : Option Int :=
  let based (base : Nat) (rest : List Char) : Option Int :=
    (digits? (isDigitOf base) rest).map fun digits => number base digits
  let n := match s with
    | '0' :: 'x' :: rest => based 16 rest
    | '0' :: 'o' :: rest => based 8 rest
    | '0' :: 'b' :: rest => based 2 rest
    | _ =>
      let (negative, rest) := unsigned s
      (decimal? rest).map fun n => if negative then -(n : Int) else n
  match n with
  | some n => if -(Nat.pow 2 127 : Int) ≤ n && n < (Nat.pow 2 128 : Int) then some n else none
  | none => none

/-- Whether a text is an exponent. -/
def isExponent (s : List Char) : Bool := (digits? Char.isDigit (unsigned s).2).isSome

/-- Whether a text is a floating point number. -/
def isFloat (s : List Char) : Bool :=
  let rest := (unsigned s).2
  let isE (c : Char) : Bool := c = 'e' || c = 'E'
  let mantissa := rest.takeWhile fun c => !isE c
  let exponent := rest.dropWhile fun c => !isE c
  let exponentFits := exponent.isEmpty || isExponent (exponent.drop 1)
  rest = ['i', 'n', 'f'] || rest = ['n', 'a', 'n'] ||
    match Text.split '.' mantissa with
    | [whole] => !exponent.isEmpty && (decimal? whole).isSome && exponentFits
    | [whole, fraction] =>
      (decimal? whole).isSome && (digits? Char.isDigit fraction).isSome && exponentFits
    | _ => false

/-! ## Dates and times -/

/-- A number of exactly so many digits. -/
def fixed? (count : Nat) (s : List Char) : Option Nat :=
  if s.length = count && s.all Char.isDigit then some (number 10 s) else none

/-- The days in a month. -/
def daysIn (year month : Nat) : Nat :=
  let leap := year % 4 = 0 && (year % 100 ≠ 0 || year % 400 = 0)
  if month = 2 then (if leap then 29 else 28)
  else if month = 4 || month = 6 || month = 9 || month = 11 then 30
  else 31

/-- Whether a text is a date. -/
def isDate (s : List Char) : Bool :=
  match (Text.split '-' s) with
  | [y, m, d] =>
    match fixed? 4 y, fixed? 2 m, fixed? 2 d with
    | some y, some m, some d => 1 ≤ m && m ≤ 12 && 1 ≤ d && d ≤ daysIn y m
    | _, _, _ => false
  | _ => false

/-- Whether a text is a number of two digits up to a limit. -/
def isUpTo (limit : Nat) (s : List Char) : Bool := (fixed? 2 s).any fun n => n ≤ limit

/-- Whether a text is a second with an optional fraction. -/
def isSecond (s : List Char) : Bool :=
  match Text.split '.' s with
  | [second] => isUpTo 60 second
  | [second, fraction] => isUpTo 60 second && fraction ≠ [] && fraction.all Char.isDigit
  | _ => false

/-- Whether a text is a time of the day. Seconds may be left out. -/
def isTime (s : List Char) : Bool :=
  match Text.split ':' s with
  | [hour, minute] => isUpTo 23 hour && isUpTo 59 minute
  | [hour, minute, second] => isUpTo 23 hour && isUpTo 59 minute && isSecond second
  | _ => false

/-- Whether a text is a distance from universal time. -/
def isOffset : List Char → Bool
  | [] => true
  | [c] => c = 'Z' || c = 'z'
  | _ :: rest =>
    match Text.split ':' rest with
    | [hour, minute] => isUpTo 23 hour && isUpTo 59 minute
    | _ => false

/-- Whether a text is a date, a time, or both. -/
def isMoment (s : List Char) : Bool :=
  let rest := s.drop 10
  isDate s || isTime s ||
    (isDate (s.take 10) && match rest with
      | [] => false
      | c :: rest =>
        let startsOffset (c : Char) : Bool := c = 'Z' || c = 'z' || c = '+' || c = '-'
        (c = 'T' || c = 't' || c = ' ') && isTime (rest.takeWhile fun c => !startsOffset c) &&
          isOffset (rest.dropWhile fun c => !startsOffset c))

/-- The value that a text without brackets and quotes stands for. -/
def Value.ofBare? (s : List Char) : Option Value :=
  if s = ['t', 'r', 'u', 'e'] then some (.boolean true)
  else if s = ['f', 'a', 'l', 's', 'e'] then some (.boolean false)
  else if let some n := integer? s then some (.integer n)
  else if isFloat s then some (.float (String.ofList s))
  else if isMoment s then some (.moment (String.ofList s))
  else none

end LiveDoc.Toml
