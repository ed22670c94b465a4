/-!
# Differences

How a text becomes another one, line by line: some lines are kept, some are deleted, some are
inserted, and these are as few as possible.

The texts form a grid. A way through it from the corner where both begin to the one where both end
goes along the old text for a deletion, along the new text for an insertion, and diagonally for a
line that both have. `middle?` looks for the shortest way from both corners at once, and `between`
divides the texts where the two searches meet.

Where there is a choice, insertions are moved down as far as they go (`settled`). Between kept lines
all deletions come before all insertions.
-/

namespace LiveDoc.Diff

/-- What happens to a line. -/
inductive Fate where
  | kept
  | deleted
  | inserted
  deriving DecidableEq, Repr

/-- Lines in a row that have the same fate. -/
structure Run where
  fate : Fate
  lines : List String
  deriving DecidableEq, Repr

/-! ## Lines -/

/-- Cuts a text behind its line ends; `line` is the current line so far, reversed. A carriage return
ends a line too, together with a line feed behind it. -/
def linesFrom (line : List Char) : List Char → List (List Char)
  | [] => if line.isEmpty then [] else [line.reverse]
  | '\r' :: '\n' :: rest => ('\n' :: '\r' :: line).reverse :: linesFrom [] rest
  | c :: rest =>
    if c = '\n' || c = '\r' then (c :: line).reverse :: linesFrom [] rest
    else linesFrom (c :: line) rest

/-- The lines of a text with their line ends. -/
def lines (text : String) : List String := (linesFrom [] text.toList).map String.ofList

/-! ## The shortest way -/

/-- How far a search has come: for each diagonal of the grid the furthest place on it, counted in
lines of the old text. -/
structure Frontier where
  offset : Nat
  furthest : Array Nat

/-- A search that has not begun, for diagonals up to `offset` on both sides. -/
def Frontier.start (offset : Nat) : Frontier := ⟨offset, .replicate (2 * offset + 2) 0⟩

/-- The furthest place on a diagonal. -/
def Frontier.get (f : Frontier) (k : Int) : Nat := f.furthest.getD (k + f.offset).toNat 0

/-- The search come to a place on a diagonal. -/
def Frontier.set (f : Frontier) (k : Int) (x : Nat) : Frontier :=
  { f with furthest := f.furthest.setIfInBounds (k + f.offset).toNat x }

/-- Where a diagonal is entered with `d` deletions and insertions: from the neighbour that is
further. -/
def Frontier.entry (f : Frontier) (d : Nat) (k : Int) : Nat :=
  if k = -d || (k ≠ d && f.get (k - 1) < f.get (k + 1)) then f.get (k + 1) else f.get (k - 1) + 1

/-- How many lines both texts have in common from two places on. -/
def ahead (old new : Array String) : (fuel x y : Nat) → Nat
  | 0, _, _ => 0
  | fuel + 1, x, y =>
    match old[x]?, new[y]? with
    | some a, some b => if a = b then 1 + ahead old new fuel (x + 1) (y + 1) else 0
    | _, _ => 0

/-- A search in the grid: the texts seen from one corner, and how far it has come. -/
structure Search where
  old : Array String
  new : Array String
  frontier : Frontier

/-- A place in the grid, counted in lines of both texts from the corner where a search began. -/
structure Place where
  x : Nat
  y : Nat
  deriving DecidableEq, Repr

/-- Goes on with a search along diagonals. It ends at one on which it meets the search from the
other corner, if it may meet it there: where it entered the diagonal, and how far it came. -/
def Search.advance (s : Search) (other : Frontier) (d : Nat) (meets : Int → Bool) (delta : Int) :
    List Int → Frontier × Option (Place × Place)
  | [] => (s.frontier, none)
  | k :: ks =>
    let x := s.frontier.entry d k
    let y := (x - k).toNat
    let far := ahead s.old s.new (s.old.size + s.new.size) x y
    let frontier := s.frontier.set k (x + far)
    if meets (k - delta) && s.old.size ≤ x + far + other.get (delta - k) then
      (frontier, some (⟨x, y⟩, ⟨x + far, y + far⟩))
    else { s with frontier }.advance other d meets delta ks

/-- The diagonals that `d` deletions and insertions lead to, the last one first. -/
def diagonals (d : Nat) : List Int :=
  (List.range (d + 1)).map fun (i : Nat) => (d : Int) - 2 * (i : Int)

/-- The place where a shortest way can be divided. With `d` deletions and insertions from each
corner, first the search from the beginning goes on, then the one from the end. They can meet in the
first step or in the second one, depending on the difference of the lengths. -/
def middleFrom? (forward backward : Search) : (fuel d : Nat) → Option Place
  | 0, _ => none
  | fuel + 1, d =>
    let delta := (forward.old.size : Int) - forward.new.size
    let first (k : Int) : Bool := delta % 2 ≠ 0 && k.natAbs + 1 ≤ d
    let second (k : Int) : Bool := delta % 2 = 0 && k.natAbs ≤ d
    match forward.advance backward.frontier d first delta (diagonals d) with
    | (_, some (entered, _)) => some entered
    | (reached, none) =>
      match backward.advance reached d second delta (diagonals d) with
      | (_, some (_, last)) => some ⟨forward.old.size - last.x, forward.new.size - last.y⟩
      | (back, none) =>
        middleFrom? { forward with frontier := reached } { backward with frontier := back } fuel
          (d + 1)

/-- The place where a shortest way can be divided, for texts that neither begin nor end alike. -/
def middle? (old new : List String) : Option Place :=
  let most := (old.length + new.length + 1) / 2 + 1
  let start := Frontier.start most
  middleFrom? ⟨old.toArray, new.toArray, start⟩ ⟨old.reverse.toArray, new.reverse.toArray, start⟩
    most 0

/-- The lines that two texts begin with. -/
def commonStart : List String → List String → List String
  | a :: old, b :: new => if a = b then a :: commonStart old new else []
  | _, _ => []

/-- A run, unless it has no lines. -/
def runOf (fate : Fate) (ls : List String) : List Run := if ls.isEmpty then [] else [⟨fate, ls⟩]

/-- What happens to the lines of a text that becomes another one. -/
def between : (fuel : Nat) → (old new : List String) → List Run
  | 0, old, new => runOf .deleted old ++ runOf .inserted new
  | fuel + 1, old, new =>
    let start := commonStart old new
    let old := old.drop start.length
    let new := new.drop start.length
    let last := (commonStart old.reverse new.reverse).reverse
    let old := old.take (old.length - last.length)
    let new := new.take (new.length - last.length)
    let inner :=
      if old.isEmpty || new.isEmpty then runOf .deleted old ++ runOf .inserted new
      else
        match middle? old new with
        | some p =>
          between fuel (old.take p.x) (new.take p.y) ++ between fuel (old.drop p.x) (new.drop p.y)
        | none => runOf .deleted old ++ runOf .inserted new
    runOf .kept start ++ inner ++ runOf .kept last

/-! ## Where there is a choice -/

/-- A run among others: those before it, the nearest first, and those after it. -/
structure Cursor where
  before : List Run
  lines : List String
  after : List Run

/-- A kept line put before runs. -/
def keepBefore (line : String) : List Run → List Run
  | ⟨.kept, ls⟩ :: rest => ⟨.kept, line :: ls⟩ :: rest
  | runs => ⟨.kept, [line]⟩ :: runs

/-- A kept line put behind runs, of which the nearest comes first. -/
def keepBehind (line : String) : List Run → List Run
  | ⟨.kept, ls⟩ :: rest => ⟨.kept, ls ++ [line]⟩ :: rest
  | runs => ⟨.kept, [line]⟩ :: runs

/-- Moves a run up as far as it goes: past runs of the opposite fate, together with runs of its own
fate, and, for an insertion, past a kept line that is the same as its last one. -/
def up (fate : Fate) : (fuel : Nat) → Cursor → Cursor
  | 0, c => c
  | fuel + 1, c =>
    match c.before with
    | [] => c
    | r :: before =>
      if r.lines.isEmpty then up fate fuel { c with before }
      else if r.fate = fate then up fate fuel { c with before, lines := r.lines ++ c.lines }
      else if r.fate ≠ .kept then up fate fuel { c with before, after := r :: c.after }
      else
        match r.lines.getLast?, c.lines.getLast? with
        | some line, some last =>
          if fate = .inserted && line = last then
            up fate fuel ⟨⟨.kept, r.lines.dropLast⟩ :: before, line :: c.lines.dropLast,
              keepBefore line c.after⟩
          else c
        | _, _ => c

/-- Moves a run down as far as it goes. -/
def down (fate : Fate) : (fuel : Nat) → Cursor → Cursor
  | 0, c => c
  | fuel + 1, c =>
    match c.after with
    | [] => c
    | r :: after =>
      if r.lines.isEmpty then down fate fuel { c with after }
      else if r.fate = fate then down fate fuel { c with after, lines := c.lines ++ r.lines }
      else if r.fate ≠ .kept then down fate fuel { c with after, before := r :: c.before }
      else
        match r.lines, c.lines with
        | line :: kept, first :: lines =>
          if fate = .inserted && line = first then
            down fate fuel ⟨keepBehind line c.before, lines ++ [line], ⟨.kept, kept⟩ :: after⟩
          else c
        | _, _ => c

/-- How many lines and runs there are. -/
def size (runs : List Run) : Nat := runs.foldl (fun n r => n + r.lines.length + 1) 1

/-- Moves the runs of a fate. `before` are those behind it, the nearest first. -/
def move (fate : Fate) (room : Nat) : (fuel : Nat) → (before : List Run) → List Run → List Run
  | 0, before, runs => before.reverse ++ runs
  | _ + 1, before, [] => before.reverse
  | fuel + 1, before, r :: rest =>
    if r.fate = fate then
      let c := down fate room (up fate room ⟨before, r.lines, rest⟩)
      move fate room fuel (⟨fate, c.lines⟩ :: c.before) c.after
    else move fate room fuel (r :: before) rest

/-- Moves deletions and then insertions to where they are shown. -/
def settled (runs : List Run) : List Run :=
  let room := 2 * size runs
  move .inserted room room [] (move .deleted room room [] runs)

/-- The lines of runs with their fates. Deleted lines come before the inserted ones that follow the
same kept line. -/
def listed (deleted inserted : List String) : List Run → List (Fate × String)
  | [] => waiting
  | ⟨.deleted, ls⟩ :: rest => listed (deleted ++ ls) inserted rest
  | ⟨.inserted, ls⟩ :: rest => listed deleted (inserted ++ ls) rest
  | ⟨.kept, ls⟩ :: rest => waiting ++ ls.map (.kept, ·) ++ listed [] [] rest
where
  /-- The lines that were not listed yet. -/
  waiting : List (Fate × String) := deleted.map (.deleted, ·) ++ inserted.map (.inserted, ·)

end LiveDoc.Diff

namespace LiveDoc

/-- What happens to the lines of a text that becomes another one. -/
def diff (old new : String) : List (Diff.Fate × String) :=
  let a := Diff.lines old
  let b := Diff.lines new
  Diff.listed [] [] (Diff.settled (Diff.between (a.length + b.length + 1) a b))

end LiveDoc
