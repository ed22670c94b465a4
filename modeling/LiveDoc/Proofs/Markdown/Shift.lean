import LiveDoc.Markdown.Document

/-!
# Reading does not depend on the place

Glyphs know their places in the source, but the rules for blocks look at distances only: glyphs that
are moved as a whole are read in the same way, and what is left of them is moved along. There is one
lemma for each rule.
-/

namespace LiveDoc.Markdown

variable (d : Nat)

/-! ## Glyphs -/

/-- The glyph, moved by `d` bytes, whatever stands around it. -/
@[reducible] def Glyph.shift (g : Glyph) : Glyph :=
  { g with start := g.start + d, stop := g.stop + d, before := none, after := none }

/-- Glyphs, moved by `d` bytes. -/
def shifted (gs : List Glyph) : List Glyph := gs.map (Glyph.shift d)

namespace Glyph

@[simp] theorem source_shift (g : Glyph) : (g.shift d).source = g.source := rfl

@[simp] theorem column_shift (g : Glyph) : (g.shift d).column = g.column := rfl

@[simp] theorem start_shift (g : Glyph) : (g.shift d).start = g.start + d := rfl

@[simp] theorem stop_shift (g : Glyph) : (g.shift d).stop = g.stop + d := rfl

@[simp] theorem isSpace_shift (g : Glyph) : (g.shift d).isSpace = g.isSpace := rfl

@[simp] theorem isLineEnd_shift (g : Glyph) : (g.shift d).isLineEnd = g.isLineEnd := rfl

end Glyph

@[simp] theorem shifted_nil : shifted d [] = [] := rfl

@[simp] theorem shifted_cons (g : Glyph) (gs : List Glyph) :
    shifted d (g :: gs) = g.shift d :: shifted d gs := rfl

@[simp] theorem shifted_append (gs hs : List Glyph) :
    shifted d (gs ++ hs) = shifted d gs ++ shifted d hs := List.map_append

@[simp] theorem length_shifted (gs : List Glyph) : (shifted d gs).length = gs.length :=
  List.length_map _

@[simp] theorem isEmpty_shifted (gs : List Glyph) : (shifted d gs).isEmpty = gs.isEmpty :=
  List.isEmpty_map

@[simp] theorem head?_shifted (gs : List Glyph) :
    (shifted d gs).head? = gs.head?.map (Glyph.shift d) := List.head?_map

@[simp] theorem getLast?_shifted (gs : List Glyph) :
    (shifted d gs).getLast? = gs.getLast?.map (Glyph.shift d) := List.getLast?_map

@[simp] theorem reverse_shifted (gs : List Glyph) :
    (shifted d gs).reverse = shifted d gs.reverse := List.map_reverse.symm

@[simp] theorem take_shifted (n : Nat) (gs : List Glyph) :
    (shifted d gs).take n = shifted d (gs.take n) := List.map_take.symm

@[simp] theorem tail_shifted (gs : List Glyph) : (shifted d gs).tail = shifted d gs.tail :=
  List.map_tail.symm

@[simp] theorem drop_shifted (n : Nat) (gs : List Glyph) :
    (shifted d gs).drop n = shifted d (gs.drop n) := List.map_drop.symm

@[simp] theorem takeWhile_shifted (p : Glyph → Bool) (gs : List Glyph) :
    (shifted d gs).takeWhile p = shifted d (gs.takeWhile fun g => p (g.shift d)) :=
  List.takeWhile_map

@[simp] theorem dropWhile_shifted (p : Glyph → Bool) (gs : List Glyph) :
    (shifted d gs).dropWhile p = shifted d (gs.dropWhile fun g => p (g.shift d)) :=
  List.dropWhile_map

@[simp] theorem all_shifted (p : Glyph → Bool) (gs : List Glyph) :
    (shifted d gs).all p = gs.all fun g => p (g.shift d) := List.all_map

@[simp] theorem filter_shifted (p : Glyph → Bool) (gs : List Glyph) :
    (shifted d gs).filter p = shifted d (gs.filter fun g => p (g.shift d)) := List.filter_map

@[simp] theorem all_isSpace_shifted (gs : List Glyph) :
    (shifted d gs).all Glyph.isSpace = gs.all Glyph.isSpace := all_shifted d Glyph.isSpace gs

@[simp] theorem map_char_shifted (gs : List Glyph) :
    (shifted d gs).map (·.char) = gs.map (·.char) := by
  rw [shifted, List.map_map]
  rfl

namespace Glyph

@[simp] theorem cutSpaces_shifted (n : Nat) (gs : List Glyph) :
    cutSpaces n (shifted d gs) = (shifted d (cutSpaces n gs).1, shifted d (cutSpaces n gs).2) := by
  induction n generalizing gs with
  | zero => rfl
  | succ n ih =>
    cases gs with
    | nil => rfl
    | cons g rest =>
      cases hspace : g.isSpace with
      | false => simp [cutSpaces, hspace]
      | true => simp [cutSpaces, hspace, ih]

@[simp] theorem dropSpaces_shifted (gs : List Glyph) :
    dropSpaces (shifted d gs) = shifted d (dropSpaces gs) := by
  simp [dropSpaces]

@[simp] theorem startsWith_shifted (cs : List Char) (gs : List Glyph) :
    startsWith cs (shifted d gs) = startsWith cs gs := by
  induction cs generalizing gs with
  | nil => rfl
  | cons c cs ih =>
    cases gs with
    | nil => rfl
    | cons g rest => rw [shifted_cons, startsWith, startsWith, ih]

theorem textFrom_shifted (last : Option Nat) (gs : List Glyph) :
    textFrom (last.map (· + d)) (shifted d gs) = textFrom last gs := by
  induction gs generalizing last with
  | nil => rfl
  | cons g rest ih =>
    have hlast : (last.map (· + d) = some (g.start + d)) ↔ last = some g.start := by
      cases last <;> simp
    have hrest := ih (some g.start)
    rw [Option.map_some] at hrest
    rw [shifted_cons, textFrom, textFrom, start_shift, hrest, column_shift, source_shift,
      decide_eq_decide.mpr hlast]

@[simp] theorem text_shifted (gs : List Glyph) : text (shifted d gs) = text gs :=
  textFrom_shifted d none gs

@[simp] theorem startOf_shifted (place : Nat) (gs : List Glyph) :
    startOf (place + d) (shifted d gs) = startOf place gs + d := by
  cases gs <;> rfl

@[simp] theorem stopOf_shifted (place : Nat) (gs : List Glyph) :
    stopOf (place + d) (shifted d gs) = stopOf place gs + d := by
  unfold stopOf
  rw [getLast?_shifted]
  cases gs.getLast? <;> rfl

@[simp] theorem size_shifted (gs : List Glyph) (next : Option Glyph) :
    size (shifted d gs) (next.map (Glyph.shift d)) = size gs next := by
  unfold size
  rw [head?_shifted, getLast?_shifted]
  cases gs.head? with
  | none => rfl
  | some first =>
    cases gs.getLast? with
    | none => rfl
    | some last =>
      simp only [Option.map_some]
      -- all places are moved, so no distance changes
      by_cases hfirst : first.column = 0
      · cases next with
        | none =>
          simp only [hfirst, if_true, Option.map_none]
          omega
        | some g => by_cases hg : g.column = 0 <;> simp [hfirst, hg] <;> omega
      · cases next with
        | none =>
          simp only [hfirst, if_false, Option.map_none]
          omega
        | some g =>
          by_cases hg : g.column = 0 <;>
            simp only [hfirst, hg, if_false, if_true, Option.map_some] <;> omega

end Glyph

@[simp] theorem startsWith_cons_shifted (cs : List Char) (g : Glyph) (gs : List Glyph) :
    Glyph.startsWith cs (g.shift d :: shifted d gs) = Glyph.startsWith cs (g :: gs) :=
  Glyph.startsWith_shifted d cs (g :: gs)

@[simp] theorem drop_cons_shifted (n : Nat) (g : Glyph) (gs : List Glyph) :
    (g.shift d :: shifted d gs).drop n = shifted d ((g :: gs).drop n) :=
  drop_shifted d n (g :: gs)

/-! ## Lines that start or end a leaf -/

@[simp] theorem isThematicBreak_shifted (gs : List Glyph) :
    isThematicBreak (shifted d gs) = isThematicBreak gs := by
  unfold isThematicBreak
  rw [Glyph.cutSpaces_shifted]
  dsimp only
  cases (Glyph.cutSpaces indentMax gs).2 with
  | nil => rfl
  | cons g rest => simp

@[simp] theorem isUnderline_shifted (gs : List Glyph) :
    isUnderline (shifted d gs) = isUnderline gs := by
  unfold isUnderline
  rw [Glyph.cutSpaces_shifted]
  dsimp only
  cases (Glyph.cutSpaces indentMax gs).2 with
  | nil => rfl
  | cons g rest => simp

namespace Heading

theorem dropHashes_shifted (fuel : Nat) (gs : List Glyph) :
    dropHashes fuel (shifted d gs) = shifted d (dropHashes fuel gs) := by
  fun_induction dropHashes fuel gs <;> simp_all [dropHashes]

theorem dropClosing_shifted (fuel : Nat) (gs : List Glyph) :
    dropClosing fuel (shifted d gs) = shifted d (dropClosing fuel gs) := by
  induction fuel generalizing gs with
  | zero => rfl
  | succ fuel ih =>
    simp only [dropClosing, Glyph.dropSpaces_shifted]
    cases Glyph.dropSpaces gs with
    | nil => rfl
    | cons g rest =>
      by_cases hg : g.char = '#'
      · simp only [shifted_cons, hg, if_true, List.dropWhile_cons, decide_true, dropWhile_shifted]
        cases rest.dropWhile fun h => decide (h.char = '#') with
        | nil => rfl
        | cons h more =>
          have hmore := ih (h :: more)
          by_cases hh : h.isSpace
          · simpa [hh] using hmore
          · simp [hh]
      · simp [hg]

@[simp] theorem text?_shifted (gs : List Glyph) :
    text? (shifted d gs) = (text? gs).map (shifted d) := by
  have hhead : ∀ o : Option Glyph, ((o.map (Glyph.shift d)).map Glyph.isSpace).getD true =
      (o.map Glyph.isSpace).getD true := by
    intro o
    cases o <;> rfl
  simp only [text?, Glyph.cutSpaces_shifted, takeWhile_shifted, dropWhile_shifted, length_shifted,
    head?_shifted, hhead, dropHashes_shifted, reverse_shifted, dropClosing_shifted]
  split <;> rfl

end Heading

/-- The first line of fenced code, moved by `d` bytes. -/
@[reducible] def FenceOpening.shift (o : FenceOpening) : FenceOpening :=
  { o with start := o.start + d, info := shifted d o.info, details := shifted d o.details }

@[simp] theorem FenceOpening.read?_shifted (gs : List Glyph) :
    read? (shifted d gs) = (read? gs).map (FenceOpening.shift d) := by
  unfold read?
  rw [Glyph.cutSpaces_shifted]
  dsimp only
  cases (Glyph.cutSpaces indentMax gs).2 with
  | nil => rfl
  | cons g rest =>
    simp only [shifted_cons, List.takeWhile_cons, List.dropWhile_cons, decide_true, if_true,
      List.length_cons, takeWhile_shifted, dropWhile_shifted, length_shifted,
      Glyph.dropSpaces_shifted, all_shifted, List.head?_cons]
    split
    · have hsize := Glyph.size_shifted d (Glyph.cutSpaces indentMax gs).1 (some g)
      rw [Option.map_some] at hsize
      simp only [Option.map_some, hsize]
      rfl
    · rfl

@[simp] theorem FenceOpening.closedBy_shift (o : FenceOpening) (gs : List Glyph) :
    (o.shift d).closedBy (shifted d gs) = o.closedBy gs := by
  simp [closedBy]

/-! ## HTML -/

namespace Html

@[simp] theorem after?_shifted (pattern : List Char) (gs : List Glyph) :
    after? pattern (shifted d gs) = (after? pattern gs).map (shifted d) := by
  fun_induction after? pattern gs <;> simp_all [after?]

@[simp] theorem valueMayEnd_shifted (gs : List Glyph) :
    valueMayEnd (shifted d gs) = valueMayEnd gs := by
  cases gs <;> rfl

@[simp] theorem isSeparator_shift (g : Glyph) : isSeparator (g.shift d) = isSeparator g := rfl

@[simp] theorem endsBareValue_shift (g : Glyph) : endsBareValue (g.shift d) = endsBareValue g := rfl

@[simp] theorem value?_shifted (block : Bool) (gs : List Glyph) :
    value? block (shifted d gs) = (value? block gs).map (shifted d) := by
  cases gs with
  | nil => rfl
  | cons g rest =>
    rw [shifted_cons, value?, value?]
    split
    · rw [after?_shifted]
      cases after? [g.char] rest with
      | none => rfl
      | some more =>
        simp only [Option.map_some, valueMayEnd_shifted]
        split <;> rfl
    · split
      · rfl
      · simp only [dropWhile_shifted, valueMayEnd_shifted, endsBareValue_shift]
        split <;> rfl

@[simp] theorem attributes?_shifted (block : Bool) (fuel : Nat) (named : Bool)
    (gs : List Glyph) : attributes? block fuel named (shifted d gs) =
      (attributes? block fuel named gs).map (shifted d) := by
  induction fuel generalizing named gs with
  | zero => rfl
  | succ fuel ih =>
    have hbind : ∀ o : Option (List Glyph),
        (o.map (shifted d)).bind (attributes? block fuel block) =
          (o.bind (attributes? block fuel block)).map (shifted d) := by
      intro o
      cases o with
      | none => rfl
      | some rest => exact ih block rest
    simp only [attributes?, dropWhile_shifted, isSeparator_shift]
    cases gs.dropWhile fun g => isSeparator g with
    | nil => rfl
    | cons g rest =>
      simp only [shifted_cons, dropWhile_shifted, isSeparator_shift, value?_shifted, hbind, ih]
      split
      · rfl
      · split
        · rfl
        · split
          · cases rest with
            | nil => rfl
            | cons h more =>
              simp only [shifted_cons]
              split <;> rfl
          · split <;> rfl

@[simp] theorem closingTag?_shifted (gs : List Glyph) :
    closingTag? (shifted d gs) = (closingTag? gs).map (shifted d) := by
  unfold closingTag?
  simp only [dropWhile_shifted, isSeparator_shift]
  cases gs.dropWhile fun g => isSeparator g with
  | nil => rfl
  | cons g rest =>
    rw [shifted_cons]
    dsimp only
    split <;> rfl

@[simp] theorem openingTag?_shifted (block : Bool) (gs : List Glyph) :
    openingTag? block (shifted d gs) = (openingTag? block gs).map (shifted d) := by
  simp only [openingTag?, valueMayEnd_shifted, length_shifted, attributes?_shifted]
  split <;> rfl

@[simp] theorem startsWithLetter_shifted (gs : List Glyph) :
    startsWithLetter (shifted d gs) = startsWithLetter gs := by
  cases gs <;> rfl

@[simp] theorem nameOf_shifted (gs : List Glyph) : nameOf (shifted d gs) = nameOf gs := by
  rw [nameOf, nameOf, shifted, List.map_map]
  rfl

@[simp] theorem isRest_map (gs : Option (List Glyph)) :
    isRest (gs.map (shifted d)) = isRest gs := by
  cases gs with
  | none => rfl
  | some gs => exact all_isSpace_shifted d gs

@[simp] theorem tagBlock?_shifted (closing interrupting : Bool) (gs : List Glyph) :
    tagBlock? closing interrupting (shifted d gs) = tagBlock? closing interrupting gs := by
  cases closing <;> simp [tagBlock?]

@[simp] theorem Block.open?_shifted (interrupting : Bool) (gs : List Glyph) :
    Block.open? interrupting (shifted d gs) = Block.open? interrupting gs := by
  cases gs with
  | nil => rfl
  | cons g rest =>
    simp only [shifted_cons, Block.open?, Glyph.startsWith_shifted, drop_shifted,
      startsWithLetter_shifted, tagBlock?_shifted]

theorem closesRaw_shifted (gs : List Glyph) : closesRaw (shifted d gs) = closesRaw gs := by
  induction gs with
  | nil => rfl
  | cons g rest ih => simp [closesRaw, ih]

theorem closesData_shifted (gs : List Glyph) : closesData (shifted d gs) = closesData gs := by
  fun_induction closesData gs with
  | case1 g h rest hpair ih =>
    rw [shifted_cons, shifted_cons, closesData, if_pos hpair, Glyph.startsWith_shifted, ih]
  | case2 g h rest hpair ih =>
    rw [shifted_cons, shifted_cons, closesData, if_neg hpair]
    exact ih
  | case3 gs hgs =>
    match gs with
    | [] => rfl
    | [g] => rfl
    | g :: h :: rest => exact absurd rfl (hgs g h rest)

@[simp] theorem Block.closedBy_shifted (kind : Block) (gs : List Glyph) :
    kind.closedBy (shifted d gs) = kind.closedBy gs := by
  cases kind <;> simp [Block.closedBy, closesRaw_shifted, closesData_shifted]

@[simp] theorem Block.closedAtOnce_shifted (kind : Block) (gs : List Glyph) :
    kind.closedAtOnce (shifted d gs) = kind.closedAtOnce gs := by
  cases kind <;> simp [Block.closedAtOnce]

end Html

/-! ## Tables -/

namespace Table

theorem parts_shifted (escaped : Bool) (gs : List Glyph) :
    (parts escaped (shifted d gs)).map (·.1) = (parts escaped gs).map (·.1) := by
  induction gs generalizing escaped with
  | nil => rfl
  | cons g rest ih =>
    rw [shifted_cons, parts, parts]
    split
    · exact congrArg (Part.content :: ·) (ih false)
    · split
      · exact congrArg (Part.bar :: ·) (ih false)
      · cases hspace : g.isSpace with
        | true =>
          have hshift : (g.shift d).isSpace = true := hspace
          rw [if_pos hshift, if_pos rfl]
          exact congrArg (Part.space :: ·) (ih false)
        | false =>
          have hshift : ¬ (g.shift d).isSpace = true := by
            rw [Glyph.isSpace_shift, hspace]
            exact Bool.false_ne_true
          rw [if_neg hshift, if_neg Bool.false_ne_true]
          exact congrArg (Part.content :: ·) (ih _)

@[simp] theorem headSize?_shifted (gs : List Glyph) : headSize? (shifted d gs) = headSize? gs := by
  simp only [headSize?, Glyph.cutSpaces_shifted, parts_shifted]

theorem rulesFrom_shifted (fuel : Nat) (drawn : Bool) (count : Nat) (gs : List Glyph) :
    rulesFrom fuel drawn count (shifted d gs) = rulesFrom fuel drawn count gs := by
  induction fuel generalizing drawn count gs with
  | zero => rfl
  | succ fuel ih =>
    have hbar : (if Glyph.startsWith ['|'] gs then Glyph.dropSpaces ((shifted d gs).drop 1)
        else shifted d gs) =
        shifted d (if Glyph.startsWith ['|'] gs then Glyph.dropSpaces (gs.drop 1) else gs) := by
      split
      · rw [drop_shifted, Glyph.dropSpaces_shifted]
      · rfl
    simp only [rulesFrom, Glyph.startsWith_shifted, hbar, isEmpty_shifted]
    generalize (if Glyph.startsWith ['|'] gs then Glyph.dropSpaces (gs.drop 1) else gs) = cell
    have hcell : (if Glyph.startsWith [':'] cell then (shifted d cell).drop 1
        else shifted d cell) =
        shifted d (if Glyph.startsWith [':'] cell then cell.drop 1 else cell) := by
      split
      · rw [drop_shifted]
      · rfl
    simp only [hcell, dropWhile_shifted, Glyph.startsWith_shifted]
    generalize (if Glyph.startsWith [':'] cell then cell.drop 1 else cell) = dashes
    generalize hafter : (dashes.dropWhile fun g => g.char = '-') = after
    have hnext : Glyph.dropSpaces (if Glyph.startsWith [':'] after then (shifted d after).drop 1
        else shifted d after) =
        shifted d (Glyph.dropSpaces (if Glyph.startsWith [':'] after then after.drop 1
          else after)) := by
      split
      · rw [drop_shifted, Glyph.dropSpaces_shifted]
      · rw [Glyph.dropSpaces_shifted]
    simp only [hnext, isEmpty_shifted, Glyph.startsWith_shifted, ih]

@[simp] theorem isRule_shifted (cells : Nat) (gs : List Glyph) :
    isRule cells (shifted d gs) = isRule cells gs := by
  simp only [isRule, Glyph.cutSpaces_shifted, length_shifted, rulesFrom_shifted]

end Table

/-! ## Definitions -/

@[simp] theorem skipGap?_shifted (gs : List Glyph) :
    skipGap? (shifted d gs) = (skipGap? gs).map (shifted d) := by
  unfold skipGap?
  simp only [dropWhile_shifted, Glyph.isSpace_shift, isEmpty_shifted, head?_shifted]
  have hhead : ((gs.head?.map (Glyph.shift d)).map Glyph.isSpace).getD false =
      (gs.head?.map Glyph.isSpace).getD false := by
    cases gs <;> rfl
  rw [hhead]
  cases gs.dropWhile fun g => g.isSpace with
  | nil =>
    rw [shifted_nil]
    dsimp only
    split <;> rfl
  | cons g rest =>
    simp only [shifted_cons, Glyph.isLineEnd_shift, Glyph.dropSpaces_shifted]
    split
    · rfl
    · split <;> rfl

@[simp] theorem skipGap_shifted (gs : List Glyph) :
    skipGap (shifted d gs) = shifted d (skipGap gs) := by
  rw [skipGap, skipGap, skipGap?_shifted]
  cases skipGap? gs <;> rfl

theorem Label.readFrom_shifted (size : Nat) (seen escaped : Bool) (gs : List Glyph) :
    readFrom size seen escaped (shifted d gs) =
      (readFrom size seen escaped gs).map fun r => (shifted d r.1, shifted d r.2) := by
  induction gs generalizing size seen escaped with
  | nil => rfl
  | cons g rest ih =>
    have hmore : ∀ o : Option (List Glyph × List Glyph),
        (o.map fun r => (shifted d r.1, shifted d r.2)).map
            (fun x => (g.shift d :: x.1, x.2)) =
          (o.map fun x => (g :: x.1, x.2)).map fun r => (shifted d r.1, shifted d r.2) := by
      intro o
      cases o <;> rfl
    simp only [shifted_cons, readFrom, ih, Glyph.isLineEnd_shift, Glyph.isSpace_shift, hmore]
    split
    · rfl
    · split
      · rfl
      · split
        · rfl
        · split
          · split <;> rfl
          · split <;> rfl

@[simp] theorem Label.read?_shifted (gs : List Glyph) :
    read? (shifted d gs) = (read? gs).map fun r => (shifted d r.1, shifted d r.2) := by
  cases gs with
  | nil => rfl
  | cons g rest =>
    simp only [shifted_cons, read?, readFrom_shifted]
    split <;> rfl

namespace Target

theorem enclosed?_shifted (escaped : Bool) (gs : List Glyph) :
    enclosed? escaped (shifted d gs) = (enclosed? escaped gs).map (shifted d) := by
  fun_induction enclosed? escaped gs <;> simp_all [enclosed?]

theorem bare?_shifted (limit : Option Nat) (depth : Nat) (escaped : Bool) (gs : List Glyph) :
    bare? limit depth escaped (shifted d gs) = (bare? limit depth escaped gs).map (shifted d) := by
  induction gs generalizing depth escaped with
  | nil =>
    rw [shifted_nil, bare?]
    split <;> rfl
  | cons g rest ih =>
    simp only [shifted_cons, bare?, ih, Glyph.isLineEnd_shift, Glyph.isSpace_shift]
    split
    · rfl
    · split
      · rfl
      · split
        · rfl
        · split
          · rfl
          · split <;> rfl

@[simp] theorem destination?_shifted (limit : Option Nat) (gs : List Glyph) :
    destination? limit (shifted d gs) = (destination? limit gs).map (shifted d) := by
  cases gs with
  | nil => rfl
  | cons g rest =>
    simp only [shifted_cons, destination?, enclosed?_shifted]
    rw [← shifted_cons, bare?_shifted]
    split
    · rfl
    · split <;> rfl

theorem titleFrom?_shifted (close : Char) (escaped : Bool) (gs : List Glyph) :
    titleFrom? close escaped (shifted d gs) = (titleFrom? close escaped gs).map (shifted d) := by
  induction gs generalizing escaped with
  | nil => rfl
  | cons g rest ih =>
    simp only [shifted_cons, titleFrom?, ih]
    split
    · rfl
    · split <;> rfl

@[simp] theorem title?_shifted (gs : List Glyph) :
    title? (shifted d gs) = (title? gs).map (shifted d) := by
  cases gs with
  | nil => rfl
  | cons g rest =>
    simp only [shifted_cons, title?, titleFrom?_shifted]
    split
    · rfl
    · split <;> rfl

@[simp] theorem skip?_shifted (c : Char) (gs : List Glyph) :
    skip? c (shifted d gs) = (skip? c gs).map (shifted d) := by
  cases gs with
  | nil => rfl
  | cons g rest =>
    simp only [shifted_cons, skip?]
    split <;> rfl

@[simp] theorem atLineEnd_shifted (gs : List Glyph) : atLineEnd (shifted d gs) = atLineEnd gs := by
  cases gs <;> rfl

@[simp] theorem definitionTitle?_shifted (gs : List Glyph) :
    definitionTitle? (shifted d gs) = (definitionTitle? gs).map (shifted d) := by
  rw [definitionTitle?, definitionTitle?, skipGap?_shifted]
  cases skipGap? gs with
  | none => rfl
  | some rest =>
    simp only [Option.map_some, Option.bind_some, title?_shifted]
    cases title? rest with
    | none => rfl
    | some rest =>
      simp only [Option.map_some, Option.bind_some, Glyph.dropSpaces_shifted, atLineEnd_shifted]
      split <;> rfl

@[simp] theorem definition?_shifted (gs : List Glyph) :
    definition? (shifted d gs) = (definition? gs).map fun r => (shifted d r.1, shifted d r.2) := by
  rw [definition?, definition?, Glyph.dropSpaces_shifted, Label.read?_shifted]
  cases Label.read? (Glyph.dropSpaces gs) with
  | none => rfl
  | some labelled =>
    obtain ⟨label, rest⟩ := labelled
    simp only [Option.map_some, Option.bind_some, skip?_shifted]
    cases skip? ':' rest with
    | none => rfl
    | some rest =>
      simp only [Option.map_some, Option.bind_some, skipGap_shifted, destination?_shifted]
      cases destination? none (skipGap rest) with
      | none => rfl
      | some rest =>
        simp only [Option.map_some, Option.bind_some, definitionTitle?_shifted]
        cases definitionTitle? rest with
        | some rest => rfl
        | none =>
          simp only [Option.map_none, Glyph.dropSpaces_shifted, atLineEnd_shifted]
          split <;> rfl

end Target

end LiveDoc.Markdown
