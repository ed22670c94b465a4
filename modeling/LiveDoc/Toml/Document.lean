import LiveDoc.Toml.Quoted
import LiveDoc.Toml.Table

/-!
# TOML documents

`Toml.parse?` reads a file. A file is a list of lines: headers, and keys with values. Every reader
gets the characters from where its part may start, and gives what follows.
-/

namespace LiveDoc.Toml

/-! ## Blanks -/

/-- Skips spaces and tabs. -/
def skipSpaces (s : List Char) : List Char := s.dropWhile isSpace

/-- Skips a comment, if there is one. Only tabs may be in it among the controls. -/
def skipComment? : List Char → Option (List Char)
  | '#' :: rest =>
    let text := rest.takeWhile fun c => c ≠ '\n' && c ≠ '\r'
    if text.any isForbidden then none else some (rest.drop text.length)
  | s => some s

/-- Skips spaces, comments and line ends. -/
def skipBlanks? : (fuel : Nat) → List Char → Option (List Char)
  | 0, s => some s
  | fuel + 1, s =>
    (skipComment? (skipSpaces s)).bind fun rest =>
      match skipLineEnd? rest with
      | some rest => skipBlanks? fuel rest
      | none => some rest

/-- Skips what may follow on the same line, and the line end. -/
def endLine? (s : List Char) : Option (List Char) :=
  (skipComment? (skipSpaces s)).bind fun rest =>
    match rest with
    | [] => some []
    | _ => skipLineEnd? rest

/-! ## Keys -/

/-- Whether a character may be in a key without quotes. -/
def isKeyChar (c : Char) : Bool := c.isAlphanum || c = '_' || c = '-'

/-- Reads one part of a key. -/
def keyPart? (s : List Char) : Option (String × List Char) :=
  match quoted? false s with
  | some (text, rest) => some (String.ofList text, rest)
  | none =>
    let name := s.takeWhile isKeyChar
    if name.isEmpty then none else some (String.ofList name, s.drop name.length)

/-- Reads a key: parts joined by points. Gives what follows the spaces behind it. -/
def key? : (fuel : Nat) → List Char → Option (List String × List Char)
  | 0, _ => none
  | fuel + 1, s =>
    (keyPart? (skipSpaces s)).bind fun (part, rest) =>
      match skipSpaces rest with
      | '.' :: rest => (key? fuel rest).map fun (parts, rest) => (part :: parts, rest)
      | rest => some ([part], rest)

/-! ## Values -/

/-- Whether a character ends a value without brackets and quotes. -/
def endsBare (c : Char) : Bool := " \t\r\n,]\x7d#".toList.contains c

/-- Reads a value without brackets and quotes. A time may follow a date behind a space. -/
def bare? (s : List Char) : Option (Value × List Char) :=
  let text := s.takeWhile fun c => !endsBare c
  let rest := s.drop text.length
  let (text, rest) :=
    match rest with
    | ' ' :: d :: more =>
      if isDate text && d.isDigit then
        let time := (d :: more).takeWhile fun c => !endsBare c
        (text ++ ' ' :: time, (d :: more).drop time.length)
      else (text, rest)
    | _ => (text, rest)
  (Value.ofBare? text).map fun v => (v, rest)

mutual

/-- Reads a value. -/
def value? : (fuel : Nat) → List Char → Option (Value × List Char)
  | 0, _ => none
  | fuel + 1, s =>
    match s with
    | [] => none
    | c :: rest =>
      if c = '"' || c = '\'' then
        (quoted? true s).map fun (text, rest) => (.string (String.ofList text), rest)
      else if c = '[' then (elements? fuel rest).map fun (vs, rest) => (.array vs, rest)
      else if c = '\x7b' then
        (fields? fuel [] rest).map fun (es, rest) => (.table (valuesOf es), rest)
      else bare? s

/-- Reads the elements of an array up to the bracket that closes it. -/
def elements? : (fuel : Nat) → List Char → Option (List Value × List Char)
  | 0, _ => none
  | fuel + 1, s =>
    match skipBlanks? s.length s with
    | none => none
    | some (']' :: rest) => some ([], rest)
    | some s =>
      match value? fuel s with
      | none => none
      | some (v, rest) =>
        match skipBlanks? rest.length rest with
        | some (',' :: rest) => (elements? fuel rest).map fun (vs, rest) => (v :: vs, rest)
        | some (']' :: rest) => some ([v], rest)
        | _ => none

/-- Reads the keys and values of a table up to the brace that closes it. -/
def fields? : (fuel : Nat) → Entries → List Char → Option (Entries × List Char)
  | 0, _, _ => none
  | fuel + 1, es, s =>
    match skipBlanks? s.length s with
    | none => none
    | some ('\x7d' :: rest) => some (es, rest)
    | some s =>
      match key? s.length s with
      | some (key, '=' :: rest) =>
        match value? fuel (skipSpaces rest) with
        | none => none
        | some (v, rest) =>
          match Entries.add v key es, skipBlanks? rest.length rest with
          | some es, some (',' :: rest) => fields? fuel es rest
          | some es, some ('\x7d' :: rest) => some (es, rest)
          | _, _ => none
      | _ => none

end

/-! ## Lines -/

/-- What was read so far: all tables, and the names of the header that came last. -/
structure Reading where
  root : Entries
  path : List String

/-- Starts the table that a header names. -/
def start? (r : Reading) (begin : String → Entries → Option Entries) (path : List String) :
    Option Reading :=
  match path.getLast? with
  | none => none
  | some key => (r.root.within (begin key) path.dropLast).map fun root => ⟨root, path⟩

/-- Reads a header behind its first bracket. -/
def header? (r : Reading) : List Char → Option (Reading × List Char)
  | '[' :: s =>
    match key? (s.length + 1) s with
    | some (path, ']' :: ']' :: rest) => (start? r Entries.extend path).map fun r => (r, rest)
    | _ => none
  | s =>
    match key? (s.length + 1) s with
    | some (path, ']' :: rest) => (start? r Entries.define path).map fun r => (r, rest)
    | _ => none

/-- Reads a key and its value. -/
def field? (r : Reading) (s : List Char) : Option (Reading × List Char) :=
  match key? (s.length + 1) s with
  | some (key, '=' :: rest) =>
    (value? (rest.length + 1) (skipSpaces rest)).bind fun (v, rest) =>
      (r.root.within (Entries.add v key) r.path).map fun root => ({ r with root }, rest)
  | _ => none

/-- Reads lines. -/
def lines : (fuel : Nat) → Reading → List Char → Option Reading
  | 0, r, _ => some r
  | fuel + 1, r, s =>
    match skipBlanks? s.length s with
    | none => none
    | some [] => some r
    | some (c :: rest) =>
      let line := if c = '[' then header? r rest else field? r (c :: rest)
      line.bind fun (r, rest) => (endLine? rest).bind fun rest => lines fuel r rest

/-- Reads a file. A byte order mark at its start is skipped. -/
def parse? (source : String) : Option (List (String × Value)) :=
  let s := match source.toList with
    | '\uFEFF' :: rest => rest
    | s => s
  (lines (s.length + 1) ⟨[], []⟩ s).map fun r => valuesOf r.root

end LiveDoc.Toml
