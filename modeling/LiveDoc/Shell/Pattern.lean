/-!
# Patterns

The patterns of the shell, which name texts and files: `*` stands for any text, `?` for any
character, and a set in brackets for one of its members. Quoted characters stand for themselves.

* `ofGlyphs` reads a pattern, and never fails: a bracket that is not closed stands for itself;
* `accepts` says which texts a pattern stands for;
* `cutStart` and `cutEnd` take the shortest or the longest match off a text.
-/

namespace LiveDoc.Shell

/-- A character of a word, and whether it was quoted. -/
structure Glyph where
  quoted : Bool
  char : Char
  deriving DecidableEq, Repr

/-- What can be in a set. -/
inductive Member where
  | range (low high : Char)
  | class (name : String)
  deriving DecidableEq, Repr

/-- What a pattern is made of. -/
inductive Atom where
  | char (c : Char)
  | any
  | many
  | set (negated : Bool) (members : List Member)
  deriving DecidableEq, Repr

namespace Pattern

/-- Whether a character is in a named class. -/
def inClass (name : String) (c : Char) : Bool :=
  match name with
  | "alpha" => c.isAlpha
  | "digit" => c.isDigit
  | "alnum" => c.isAlphanum
  | "upper" => c.isUpper
  | "lower" => c.isLower
  | "space" => c = ' ' || (9 ≤ c.toNat && c.toNat ≤ 13)
  | "blank" => c = ' ' || c = '\t'
  | "punct" => 33 ≤ c.toNat && c.toNat ≤ 126 && !c.isAlphanum
  | "xdigit" => c.isDigit || ('a' ≤ c.toLower && c.toLower ≤ 'f')
  | "print" => 32 ≤ c.toNat && c.toNat ≤ 126
  | "graph" => 33 ≤ c.toNat && c.toNat ≤ 126
  | "cntrl" => c.toNat < 32 || c.toNat = 127
  | _ => false

/-- Whether a character is a member of a set. -/
def memberHolds (c : Char) : Member → Bool
  | .range low high => low ≤ c && c ≤ high
  | .class name => inClass name c

/-- Whether an atom stands for a character. -/
def atomHolds (c : Char) : Atom → Bool
  | .char d => c = d
  | .any => true
  | .many => false
  | .set negated members => members.any (memberHolds c) != negated

/-- Reads a member of a set: a class, a range or a character. -/
def member? (s : List Glyph) : Option (Member × List Glyph) :=
  match s with
  | [] => none
  | ⟨false, '['⟩ :: ⟨_, ':'⟩ :: rest =>
    let name := (rest.takeWhile (·.char ≠ ':')).map (·.char)
    match rest.drop name.length with
    | ⟨_, ':'⟩ :: ⟨_, ']'⟩ :: rest => some (.class (String.ofList name), rest)
    | _ => some (.range '[' '[', s.drop 1)
  | ⟨_, low⟩ :: ⟨false, '-'⟩ :: high :: rest =>
    if high = ⟨false, ']'⟩ then some (.range low low, s.drop 1)
    else some (.range low high.char, rest)
  | ⟨_, c⟩ :: rest => some (.range c c, rest)

/-- Reads the members of a set behind the opening bracket, up to the closing one. The first member
may be a closing bracket. -/
def members? (first : Bool) : (fuel : Nat) → List Glyph → Option (List Member × List Glyph)
  | 0, _ => none
  | fuel + 1, s =>
    if !first && s.head? = some ⟨false, ']'⟩ then some ([], s.drop 1)
    else
      (member? s).bind fun (m, rest) =>
        (members? false fuel rest).map fun (ms, rest) => (m :: ms, rest)

/-- Reads a set behind the opening bracket. -/
def set? (s : List Glyph) : Option (Atom × List Glyph) :=
  match s with
  | ⟨false, '!'⟩ :: rest =>
    (members? true (rest.length + 1) rest).map fun (ms, rest) => (.set true ms, rest)
  | _ => (members? true (s.length + 1) s).map fun (ms, rest) => (.set false ms, rest)

/-- Reads a pattern. -/
def ofGlyphsFrom : (fuel : Nat) → List Glyph → List Atom
  | 0, _ => []
  | _ + 1, [] => []
  | fuel + 1, ⟨quoted, c⟩ :: rest =>
    if quoted then .char c :: ofGlyphsFrom fuel rest
    else if c = '*' then .many :: ofGlyphsFrom fuel rest
    else if c = '?' then .any :: ofGlyphsFrom fuel rest
    else if c = '[' then
      match set? rest with
      | some (a, rest) => a :: ofGlyphsFrom fuel rest
      | none => .char c :: ofGlyphsFrom fuel rest
    else .char c :: ofGlyphsFrom fuel rest

/-- Reads a pattern. -/
def ofGlyphs (s : List Glyph) : List Atom := ofGlyphsFrom (s.length + 1) s

/-- The ends of a text, the whole text first. -/
def ends : List Char → List (List Char)
  | [] => [[]]
  | c :: rest => (c :: rest) :: ends rest

/-- Whether a pattern stands for a text. -/
def accepts : List Atom → List Char → Bool
  | [], s => s.isEmpty
  | .many :: p, s => (ends s).any fun rest => accepts p rest
  | a :: p, c :: rest => atomHolds c a && accepts p rest
  | _ :: _, [] => false

/-- Takes a match off the start of a text, the longest or the shortest one. -/
def cutStart (longest : Bool) (p : List Atom) (s : List Char) : List Char :=
  let places := List.range (s.length + 1)
  let matched := (if longest then places.reverse else places).find? fun n => accepts p (s.take n)
  s.drop (matched.getD 0)

/-- Takes a match off the end of a text, the longest or the shortest one. -/
def cutEnd (longest : Bool) (p : List Atom) (s : List Char) : List Char :=
  let places := List.range (s.length + 1)
  let matched := (if longest then places else places.reverse).find? fun n => accepts p (s.drop n)
  s.take (matched.getD s.length)

/-- Whether a word has characters that make it a pattern. -/
def isPattern (s : List Glyph) : Bool := s.any fun g => !g.quoted && "*?[".toList.contains g.char

end Pattern

end LiveDoc.Shell
