import LiveDoc.Shell.Arithmetic

/-!
# Printing

What `echo` and `printf` write. Both read escapes behind a backslash; `\c` ends all writing.

* `echo` joins its arguments by blanks;
* `printf` goes through its format once, and again as long as arguments are left.
-/

namespace LiveDoc.Shell.Print

/-- Whether a character is an octal digit. -/
def isOctal (c : Char) : Bool := '0' ≤ c && c ≤ '7'

/-- The character of an octal number; only its last eight bits count. -/
def ofOctal (digits : List Char) : Char :=
  Char.ofNat (digits.foldl (fun n d => 8 * n + (d.toNat - 48)) 0 % 256)

/-- The character that a letter behind a backslash means. -/
def escapes : List (Char × Char) :=
  [('\\', '\\'), ('a', '\x07'), ('b', '\x08'), ('e', '\x1b'), ('f', '\x0c'), ('n', '\n'),
    ('r', '\r'), ('t', '\t'), ('v', '\x0b')]

/-- The character that an escape means, and what follows it. A backslash that starts no escape is
itself. -/
def escape (s : List Char) : Char × List Char :=
  match s with
  | [] => ('\\', [])
  | c :: rest =>
    if isOctal c then
      let digits := (s.take 3).takeWhile isOctal
      (ofOctal digits, s.drop digits.length)
    else
      match escapes.find? (·.1 = c) with
      | some (_, d) => (d, rest)
      | none => ('\\', s)

/-- Replaces the escapes in an argument: the text, and whether it ended all writing. Here an octal
number may have a zero before its three digits. -/
def unescape : (fuel : Nat) → List Char → List Char × Bool
  | 0, _ => ([], false)
  | _ + 1, [] => ([], false)
  | _ + 1, '\\' :: 'c' :: _ => ([], true)
  | fuel + 1, '\\' :: rest =>
    let rest := match rest with
      | '0' :: d :: more => if isOctal d then d :: more else rest
      | _ => rest
    let (c, rest) := escape rest
    let (text, ended) := unescape fuel rest
    (c :: text, ended)
  | fuel + 1, c :: rest =>
    let (text, ended) := unescape fuel rest
    (c :: text, ended)

/-- Texts with blanks between them. -/
def spaced : List (List Char) → List Char
  | [] => []
  | [s] => s
  | s :: rest => s ++ ' ' :: spaced rest

/-- What `echo` writes. -/
def echo (arguments : List (List Char)) : List Char :=
  let (quiet, arguments) :=
    match arguments with
    | ['-', 'n'] :: rest => (true, rest)
    | _ => (false, arguments)
  let joined := spaced arguments
  let (text, ended) := unescape (joined.length + 1) joined
  if ended || quiet then text else text ++ ['\n']

/-! ## Formats -/

/-- How a value is written. -/
structure Conversion where
  left : Bool
  plus : Bool
  blank : Bool
  alternate : Bool
  zeros : Bool
  width : Nat
  precision : Option Nat
  letter : Char

/-- A text of at least the width of a conversion. -/
def Conversion.pad (c : Conversion) (s : List Char) : List Char :=
  let fill := List.replicate (c.width - s.length) ' '
  if c.left then s ++ fill else fill ++ s

/-- A number with a sign or a mark before its digits, at least as many as the precision says. Zeros
fill the width where no precision is given. -/
def Conversion.padNumber (c : Conversion) (mark digits : List Char) : List Char :=
  let wanted := match c.precision with
    | some n => n
    | none => if c.zeros && !c.left then c.width - mark.length else 0
  c.pad (mark ++ List.replicate (wanted - digits.length) '0' ++ digits)

/-- The digits of a number in a base; none for zero with precision zero. -/
def Conversion.digits (c : Conversion) (base n : Nat) : List Char :=
  if n = 0 && c.precision = some 0 then [] else Nat.toDigits base n

/-- The text of an integer. -/
def Conversion.signed (c : Conversion) (n : Int64) : List Char :=
  let mark := if n < 0 then ['-'] else if c.plus then ['+'] else if c.blank then [' '] else []
  c.padNumber mark (c.digits 10 n.toInt.natAbs)

/-- The text of a word as a number without a sign. -/
def Conversion.unsigned (c : Conversion) (n : Int64) : List Char :=
  let m := n.toUInt64.toNat
  match c.letter with
  | 'o' =>
    let ds := c.digits 8 m
    c.padNumber [] (if c.alternate && ds.head? ≠ some '0' then '0' :: ds else ds)
  | 'x' => c.padNumber (if c.alternate && m ≠ 0 then ['0', 'x'] else []) (c.digits 16 m)
  | 'X' =>
    c.padNumber (if c.alternate && m ≠ 0 then ['0', 'X'] else []) ((c.digits 16 m).map Char.toUpper)
  | _ => c.padNumber [] (c.digits 10 m)

/-- What is left to write with. -/
structure Supply where
  arguments : List (List Char)
  /-- What was wrong with arguments. -/
  complaints : List (List Char)

/-- The next argument. -/
def Supply.next (s : Supply) : Option (List Char) × Supply :=
  (s.arguments.head?, { s with arguments := s.arguments.tail })

/-- The next argument as a number: that of a character behind a quote, or an integer. -/
def Supply.number (s : Supply) : Int64 × Supply :=
  match s.next with
  | (none, s) => (0, s)
  | (some (q :: c :: rest), s) =>
    if q = '\'' || q = '"' then (Int64.ofNat c.toNat, s) else converted (q :: c :: rest) s
  | (some text, s) => converted text s
where
  /-- The number that a text is, with a complaint if it is not one as a whole. -/
  converted (text : List Char) (s : Supply) : Int64 × Supply :=
    let (n, rest) := Formula.integer text
    let complain (reason : String) : Supply :=
      { s with complaints := s.complaints ++ [text ++ reason.toList] }
    if text.isEmpty then (0, s)
    else if rest = text then (n, complain ": expected numeric value")
    else if !rest.isEmpty then (n, complain ": not completely converted")
    else if Formula.isOutOfRange text then (n, complain ": Numerical result out of range")
    else (n, s)

/-- Reads a number in a format, or takes the next argument for a star. -/
def size (s : List Char) (supply : Supply) : Option Int64 × List Char × Supply :=
  match s with
  | '*' :: rest =>
    let (n, supply) := supply.number
    (some n, rest, supply)
  | _ =>
    let digits := s.takeWhile Char.isDigit
    let n := digits.foldl (fun n d => 10 * n + (d.toNat - 48)) 0
    (if digits.isEmpty then none else some (Int64.ofNat n), s.drop digits.length, supply)

/-- Reads a conversion behind the percent sign: what comes before its letter. -/
def conversion (s : List Char) (supply : Supply) : Conversion × List Char × Supply :=
  let flags := s.takeWhile "#-+ 0".toList.contains
  let (width, rest, supply) := size (s.drop flags.length) supply
  let (precision, rest, supply) : Option Int64 × List Char × Supply :=
    match rest with
    | '.' :: rest =>
      let (n, rest, supply) := size rest supply
      (some (n.getD 0), rest, supply)
    | _ => (none, rest, supply)
  let width := width.getD 0
  let letter := rest.head?.getD '%'
  (⟨flags.contains '-' || width < 0, flags.contains '+', flags.contains ' ', flags.contains '#',
    flags.contains '0', width.toInt.natAbs,
    precision.bind fun n => if n < 0 then none else some n.toInt.toNat, letter⟩,
    rest.drop 1, supply)

/-- How the writing of a format ended. -/
inductive Ending where
  | done
  /-- An argument asked for it. -/
  | ended
  | complaint (text : List Char)
  deriving DecidableEq, Repr

/-- Writes a value that a conversion asks for, or none if there is no such conversion. -/
def value? (c : Conversion) (supply : Supply) : Option (List Char × Bool × Supply) :=
  if c.letter = 's' then
    let (s, supply) := supply.next
    let s := s.getD []
    some (c.pad ((c.precision.map s.take).getD s), false, supply)
  else if c.letter = 'b' then
    let (s, supply) := supply.next
    let s := s.getD []
    let (text, ended) := unescape (s.length + 1) s
    some (c.pad ((c.precision.map text.take).getD text), ended, supply)
  else if c.letter = 'c' then
    let (s, supply) := supply.next
    some (c.pad ((s.getD []).take 1), false, supply)
  else if c.letter = 'd' || c.letter = 'i' then
    let (n, supply) := supply.number
    some (c.signed n, false, supply)
  else if "ouxX".toList.contains c.letter then
    let (n, supply) := supply.number
    some (c.unsigned n, false, supply)
  else none

/-- Goes through a format once. -/
def once : (fuel : Nat) → List Char → Supply → List Char × Ending × Supply
  | 0, _, supply => ([], .done, supply)
  | _ + 1, [], supply => ([], .done, supply)
  | fuel + 1, '\\' :: rest, supply =>
    let (c, rest) := escape rest
    let (text, ending, supply) := once fuel rest supply
    (c :: text, ending, supply)
  | fuel + 1, '%' :: '%' :: rest, supply =>
    let (text, ending, supply) := once fuel rest supply
    ('%' :: text, ending, supply)
  | fuel + 1, '%' :: rest, supply =>
    let (c, behind, supply) := conversion rest supply
    let used := rest.take (rest.length - behind.length)
    if behind.length = rest.length || used.all (fun d => "#-+ 0*.123456789".toList.contains d) then
      ([], .complaint "missing format character".toList, supply)
    else
      match value? c supply with
      | none => ([], .complaint ('%' :: used ++ ": invalid directive".toList), supply)
      | some (text, true, supply) => (text, .ended, supply)
      | some (text, false, supply) =>
        let (more, ending, supply) := once fuel behind supply
        (text ++ more, ending, supply)
  | fuel + 1, c :: rest, supply =>
    let (text, ending, supply) := once fuel rest supply
    (c :: text, ending, supply)

/-- Goes through a format until no arguments are left, or one time that used none. -/
def repeated (format : List Char) : (fuel : Nat) → Supply → List Char × Ending × Supply
  | 0, supply => ([], .done, supply)
  | fuel + 1, supply =>
    match once (format.length + 1) format supply with
    | (text, .done, rest) =>
      if rest.arguments.isEmpty || rest.arguments.length = supply.arguments.length then
        (text, .done, rest)
      else
        let (more, ending, rest) := repeated format fuel rest
        (text ++ more, ending, rest)
    | other => other

/-- What `printf` writes, its complaints, and its status. -/
def printf (format : List Char) (arguments : List (List Char)) :
    List Char × List (List Char) × Nat :=
  let (text, ending, supply) := repeated format (arguments.length + 1) ⟨arguments, []⟩
  match ending with
  | .complaint reason => (text, supply.complaints ++ [reason], 2)
  | _ => (text, supply.complaints, if supply.complaints.isEmpty then 0 else 1)

end LiveDoc.Shell.Print
