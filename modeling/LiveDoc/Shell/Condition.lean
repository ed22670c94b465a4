import LiveDoc.Files
import LiveDoc.Shell.Arithmetic
import LiveDoc.Shell.Bytes

/-!
# Conditions

The conditions of `test` and `[`: about texts, integers and files, joined by `-a` and `-o`, negated
by `!`, and grouped by parentheses. Where a word could be an operator or a text, the operator
between two texts comes first.
-/

namespace LiveDoc.Shell

namespace Condition

/-- Why a condition is neither true nor false. -/
inductive Fault where
  | unexpected (word : List Char)
  | missing (word : List Char)
  | unclosed
  | illegalNumber (word : List Char)
  deriving DecidableEq, Repr

/-- What is said about the fault. -/
def Fault.message : Fault → List Char
  | unexpected word => word ++ ": unexpected operator".toList
  | missing word => word ++ ": argument expected".toList
  | unclosed => "closing paren expected".toList
  | illegalNumber word => "Illegal number: ".toList ++ word

/-- A text as an integer. -/
def number (s : List Char) : Except Fault Int64 :=
  let (n, rest) := Formula.integer s
  if rest.all Formula.isBlank && rest.length < s.length then .ok n else .error (.illegalNumber s)

/-- Compares integers. -/
def compared (holds : Int64 → Int64 → Bool) (a b : List Char) : Except Fault Bool := do
  return holds (← number a) (← number b)

/-- Whether one text comes before another. -/
def before (a b : List Char) : Bool := decide (a < b)

/-- The truth of an operator between two texts, if it is one. -/
def between? (op : String) (a b : List Char) : Option (Except Fault Bool) :=
  match op with
  | "=" => some (.ok (a = b))
  | "!=" => some (.ok (a ≠ b))
  | "<" => some (.ok (before a b))
  | ">" => some (.ok (before b a))
  | "-eq" => some (compared (· = ·) a b)
  | "-ne" => some (compared (· ≠ ·) a b)
  | "-lt" => some (compared (· < ·) a b)
  | "-le" => some (compared (· ≤ ·) a b)
  | "-gt" => some (compared (· > ·) a b)
  | "-ge" => some (compared (· ≥ ·) a b)
  | _ => none

/-- The truth of an operator before a text, if it is one. Every file can be read and written, and
only directories can be entered. -/
def about? (files : FileTree) (directory : Location) (op : String) (a : List Char) :
    Option Bool :=
  let place := files.locate? directory (stringOf a)
  let found := place.bind files.entry?
  let isDirectory := (place.map files.hasDirectory).getD false
  match op with
  | "-n" => some !a.isEmpty
  | "-z" => some a.isEmpty
  | "-e" | "-r" | "-w" => some found.isSome
  | "-f" => some (found.isSome && !isDirectory)
  | "-d" | "-x" => some isDirectory
  | "-s" =>
    some (match found with
      | some (.file bytes) => bytes.size ≠ 0
      | some .directory => true
      | none => false)
  | "-h" | "-L" | "-p" | "-b" | "-c" | "-S" | "-g" | "-u" | "-k" | "-t" => some false
  | _ => none

mutual

/-- Reads conditions joined by `-o`: the truth, and what follows. -/
def either (files : FileTree) (directory : Location) :
    (fuel : Nat) → List (List Char) → Except Fault (Bool × List (List Char))
  | 0, _ => .error (.missing [])
  | fuel + 1, words => do
    let (a, rest) ← both files directory fuel words
    match rest with
    | ['-', 'o'] :: rest => do
      let (b, rest) ← either files directory fuel rest
      return (a || b, rest)
    | _ => return (a, rest)

/-- Reads conditions joined by `-a`. -/
def both (files : FileTree) (directory : Location) :
    (fuel : Nat) → List (List Char) → Except Fault (Bool × List (List Char))
  | 0, _ => .error (.missing [])
  | fuel + 1, words => do
    let (a, rest) ← negation files directory fuel words
    match rest with
    | ['-', 'a'] :: rest => do
      let (b, rest) ← both files directory fuel rest
      return (a && b, rest)
    | _ => return (a, rest)

/-- Reads a condition, which may be negated. -/
def negation (files : FileTree) (directory : Location) :
    (fuel : Nat) → List (List Char) → Except Fault (Bool × List (List Char))
  | 0, _ => .error (.missing [])
  | fuel + 1, words =>
    match words with
    | ['!'] :: next :: rest => do
      let (a, rest) ← negation files directory fuel (next :: rest)
      return (!a, rest)
    | _ => single files directory fuel words

/-- Reads a condition without a negation. -/
def single (files : FileTree) (directory : Location) :
    (fuel : Nat) → List (List Char) → Except Fault (Bool × List (List Char))
  | 0, _ => .error (.missing [])
  | fuel + 1, words =>
    let alone (words : List (List Char)) : Except Fault (Bool × List (List Char)) :=
      match words with
      | ['('] :: next :: rest => do
        let (a, rest) ← either files directory fuel (next :: rest)
        match rest with
        | [')'] :: rest => return (a, rest)
        | _ => .error .unclosed
      | a :: b :: rest =>
        match about? files directory (String.ofList a) b with
        | some truth => .ok (truth, rest)
        | none => .ok (!a.isEmpty, b :: rest)
      | [a] => .ok (!a.isEmpty, [])
      | [] => .error (.missing [])
    match words with
    | a :: op :: b :: rest =>
      match between? (String.ofList op) a b with
      | some truth => truth.map fun truth => (truth, rest)
      | none => alone words
    | _ => alone words

end

/-- The truth of a condition. No words are false. -/
def holds (files : FileTree) (directory : Location) (words : List (List Char)) :
    Except Fault Bool :=
  if words.isEmpty then .ok false
  else
    match either files directory (4 * words.length + 4) words with
    | .error fault => .error fault
    | .ok (truth, []) => .ok truth
    | .ok (_, word :: _) => .error (.unexpected word)

end Condition

end LiveDoc.Shell
