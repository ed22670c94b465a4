import LiveDoc.Proofs.Markdown.Shift

/-!
# Steps do not depend on the place

A line that is moved meets an open leaf that is moved along as it would have where they were
(`Leaf.continue?_shift`, `Start.ofLine_shift`, `Leaf.meet_shift`). Of the blocks that come out, a
`Mark` keeps what they are, and for code where it stands.
-/

namespace LiveDoc.Markdown

open Text (Span)

variable (d : Nat)

/-! ## Lines -/

namespace Line

/-- The line, moved by `d` bytes. -/
@[reducible] def shift (l : Line) : Line :=
  ⟨shifted d l.glyphs, l.ending.map (Glyph.shift d), l.start + d⟩

@[simp] theorem stop_shift (l : Line) : (l.shift d).stop = l.stop + d :=
  Glyph.stopOf_shifted d l.start l.glyphs

@[simp] theorem next_shift (l : Line) : (l.shift d).next = l.next + d := by
  obtain ⟨gs, ending, start⟩ := l
  cases ending with
  | none => exact stop_shift d ⟨gs, none, start⟩
  | some g => rfl

@[simp] theorem all_shift (l : Line) : (l.shift d).all = shifted d l.all := by
  obtain ⟨gs, ending, start⟩ := l
  cases ending <;> simp [all]

@[simp] theorem isBlank_shift (l : Line) : (l.shift d).isBlank = l.isBlank :=
  all_isSpace_shifted d l.glyphs

@[simp] theorem cutTo_shift (l : Line) (rest : List Glyph) :
    (l.shift d).cutTo (shifted d rest) = (l.cutTo rest).shift d := by
  simp [cutTo]

@[simp] theorem endingText_shift (l : Line) : endingText (l.shift d) = endingText l := by
  obtain ⟨gs, ending, start⟩ := l
  cases ending <;> rfl

end Line

/-! ## Containers -/

namespace Container

@[simp] theorem takeQuote?_shifted (gs : List Glyph) :
    takeQuote? (shifted d gs) = (takeQuote? gs).map (shifted d) := by
  rw [takeQuote?, takeQuote?, Glyph.cutSpaces_shifted]
  cases (Glyph.cutSpaces indentMax gs).2 with
  | nil => rfl
  | cons g rest =>
    simp only [shifted_cons, Glyph.cutSpaces_shifted]
    split <;> rfl

@[simp] theorem takeIndent?_shifted (width : Nat) (gs : List Glyph) :
    takeIndent? width (shifted d gs) = (takeIndent? width gs).map (shifted d) := by
  simp only [takeIndent?, Glyph.cutSpaces_shifted, length_shifted]
  split <;> rfl

@[simp] theorem continue?_shifted (c : Container) (gs : List Glyph) :
    c.continue? (shifted d gs) = (c.continue? gs).map fun r => (r.1, shifted d r.2) := by
  cases c with
  | quote =>
    simp only [continue?, takeQuote?_shifted]
    cases takeQuote? gs <;> rfl
  | item marker width bare =>
    simp only [continue?, all_isSpace_shifted, takeIndent?_shifted, Glyph.cutSpaces_shifted]
    split
    · split <;> rfl
    · cases takeIndent? width gs <;> rfl
  | footnote label =>
    simp only [continue?, all_isSpace_shifted, takeIndent?_shifted, Glyph.cutSpaces_shifted]
    split
    · rfl
    · cases takeIndent? Glyph.tabWidth gs <;> rfl

@[simp] theorem itemMarker?_shifted (interrupting : Bool) (gs : List Glyph) :
    itemMarker? interrupting (shifted d gs) = itemMarker? interrupting gs := by
  cases gs with
  | nil => rfl
  | cons g rest =>
    have hbreak := isThematicBreak_shifted d (g :: rest)
    have htake := takeWhile_shifted d (fun h => h.char.isDigit) (g :: rest)
    have hdrop := dropWhile_shifted d (fun h => h.char.isDigit) (g :: rest)
    simp only [shifted_cons] at hbreak htake hdrop
    simp only [shifted_cons, itemMarker?, hbreak, htake, hdrop, length_shifted, map_char_shifted]
    split
    · rfl
    · split
      · rfl
      · generalize ((g :: rest).dropWhile fun h => h.char.isDigit) = after
        cases after <;> rfl

@[simp] theorem openItem?_shifted (interrupting : Bool) (gs : List Glyph) :
    openItem? interrupting (shifted d gs) =
      (openItem? interrupting gs).map fun r => (r.1, shifted d r.2) := by
  simp only [openItem?, Glyph.cutSpaces_shifted, length_shifted, drop_shifted,
    itemMarker?_shifted, all_isSpace_shifted, take_shifted, head?_shifted, Glyph.size_shifted,
    takeWhile_shifted, Glyph.isSpace_shift]
  cases itemMarker? interrupting (gs.drop (Glyph.cutSpaces indentMax gs).1.length) with
  | none => rfl
  | some found =>
    obtain ⟨marker, length⟩ := found
    simp only [Option.bind_some]
    split
    · split <;> rfl
    · split <;> rfl

theorem footnoteLabel?_shifted (size : Nat) (escaped : Bool) (gs : List Glyph) :
    footnoteLabel? size escaped (shifted d gs) =
      (footnoteLabel? size escaped gs).map fun r => (shifted d r.1, shifted d r.2) := by
  induction gs generalizing size escaped with
  | nil => rfl
  | cons g rest ih =>
    have hmore : ∀ o : Option (List Glyph × List Glyph),
        (o.map fun r => (shifted d r.1, shifted d r.2)).map
            (fun x => (g.shift d :: x.1, x.2)) =
          (o.map fun x => (g :: x.1, x.2)).map fun r => (shifted d r.1, shifted d r.2) := by
      intro o
      cases o <;> rfl
    simp only [shifted_cons, footnoteLabel?, ih, Glyph.isLineEnd_shift, Glyph.isSpace_shift, hmore]
    split
    · rfl
    · split
      · rfl
      · split
        · split <;> rfl
        · rfl

@[simp] theorem openFootnote?_shifted (gs : List Glyph) :
    openFootnote? (shifted d gs) = (openFootnote? gs).map fun r => (r.1, shifted d r.2) := by
  rw [openFootnote?, openFootnote?, Glyph.cutSpaces_shifted]
  match (Glyph.cutSpaces indentMax gs).2 with
  | [] => rfl
  | [a] => rfl
  | a :: b :: rest =>
    simp only [shifted_cons, footnoteLabel?_shifted]
    split
    · cases footnoteLabel? 0 false rest with
      | none => rfl
      | some found =>
        obtain ⟨label, rest⟩ := found
        simp only [Option.map_some, Option.bind_some, Target.skip?_shifted]
        cases Target.skip? ':' rest with
        | none => rfl
        | some rest => simp
    · rfl

@[simp] theorem open?_shifted (interrupting : Bool) (gs : List Glyph) :
    open? interrupting (shifted d gs) =
      (open? interrupting gs).map fun r => (r.1, shifted d r.2) := by
  simp only [open?, takeQuote?_shifted, openItem?_shifted, openFootnote?_shifted]
  cases takeQuote? gs with
  | some rest => rfl
  | none =>
    cases openItem? interrupting gs with
    | some found => rfl
    | none => rfl

end Container

/-! ## Marks -/

/-- What a block is, and for code where it stands. -/
inductive Mark where
  | container (c : Container)
  | element (e : Element)
  | code (span : Span)

/-- The mark, moved by `d` bytes. -/
def Mark.shift : Mark → Mark
  | .code span => .code ⟨span.start + d, span.stop + d⟩
  | m => m

def Block.mark : Block → Mark
  | .container c _ _ => .container c
  | .text e _ _ => .element e
  | .bare e _ => .element e
  | .definition _ _ => .element .definition
  | .code span _ _ _ => .code span
  | .table _ _ => .element .table

/-- The marks of blocks. -/
def marks (bs : List Block) : List Mark := bs.map Block.mark

@[simp] theorem marks_nil : marks [] = [] := rfl

@[simp] theorem marks_cons (b : Block) (bs : List Block) :
    marks (b :: bs) = b.mark :: marks bs := rfl

@[simp] theorem marks_append (bs cs : List Block) : marks (bs ++ cs) = marks bs ++ marks cs :=
  List.map_append

@[simp] theorem marks_reverse (bs : List Block) : marks bs.reverse = (marks bs).reverse :=
  List.map_reverse

/-- Blocks whose marks are those of other blocks, moved by `d` bytes. -/
def Moved (bs cs : List Block) : Prop := marks cs = (marks bs).map (Mark.shift d)

namespace Moved

variable {d : Nat} {bs bs' cs cs' : List Block}

theorem nil : Moved d [] [] := rfl

theorem append (h : Moved d bs cs) (h' : Moved d bs' cs') : Moved d (bs ++ bs') (cs ++ cs') := by
  unfold Moved at *
  rw [marks_append, marks_append, h, h', List.map_append]

theorem reverse (h : Moved d bs cs) : Moved d bs.reverse cs.reverse := by
  unfold Moved at *
  rw [marks_reverse, marks_reverse, h, List.map_reverse]

end Moved

/-! ## Leaves -/

namespace Content

@[simp] theorem glyphs_shift (lines : List Line) :
    glyphs (lines.map (Line.shift d)) = shifted d (glyphs lines) := by
  cases lines with
  | nil => rfl
  | cons last earlier =>
    have hall : ∀ ls : List Line,
        (ls.map (Line.shift d)).flatMap Line.all = shifted d (ls.flatMap Line.all) := by
      intro ls
      induction ls with
      | nil => rfl
      | cons l rest ih =>
        rw [List.map_cons, List.flatMap_cons, List.flatMap_cons, ih, Line.all_shift,
          shifted_append]
    rw [List.map_cons, glyphs, glyphs, ← List.map_reverse, hall, shifted_append]

theorem definitions_shifted (fuel : Nat) (gs : List Glyph) :
    Moved d (definitions fuel gs).1 (definitions fuel (shifted d gs)).1 ∧
      (definitions fuel (shifted d gs)).2 = shifted d (definitions fuel gs).2 := by
  induction fuel generalizing gs with
  | zero => exact ⟨rfl, rfl⟩
  | succ fuel ih =>
    simp only [definitions, Target.definition?_shifted]
    cases Target.definition? gs with
    | none => exact ⟨rfl, rfl⟩
    | some found =>
      obtain ⟨label, rest⟩ := found
      obtain ⟨hmore, hleft⟩ := ih (rest.drop 1)
      rw [← drop_shifted] at hmore hleft
      exact ⟨congrArg (Mark.element .definition :: ·) hmore, hleft⟩

/-- The definitions and the text of lines do not depend on the place. -/
theorem parts_shifted (lead : Option Line) (lines : List Line) :
    Moved d (parts lead lines).1
        (parts (lead.map (Line.shift d)) (lines.map (Line.shift d))).1 ∧
      (parts (lead.map (Line.shift d)) (lines.map (Line.shift d))).2 =
        shifted d (parts lead lines).2 := by
  obtain ⟨hdefs, hleft⟩ := definitions_shifted d lines.length (glyphs lines)
  have hempty : (definitions lines.length (shifted d (glyphs lines))).1.isEmpty =
      (definitions lines.length (glyphs lines)).1.isEmpty := by
    have hlength := congrArg List.length hdefs
    simp only [marks, List.length_map] at hlength
    rw [Bool.eq_iff_iff, List.isEmpty_iff_length_eq_zero, List.isEmpty_iff_length_eq_zero, hlength]
  unfold parts
  rw [List.length_map, glyphs_shift]
  cases lead with
  | none => exact ⟨hdefs, hleft⟩
  | some l =>
    simp only [Option.map_some, List.isEmpty_map, hempty, hleft]
    split
    · exact ⟨rfl, rfl⟩
    · split
      · refine ⟨rfl, ?_⟩
        rw [Line.all_shift, shifted_append]
      · exact ⟨congrArg (Mark.element .paragraph :: ·) hdefs, rfl⟩

theorem blocks_shifted (lead : Option Line) (lines : List Line) :
    Moved d (blocks lead lines)
      (blocks (lead.map (Line.shift d)) (lines.map (Line.shift d))) := by
  obtain ⟨hdefs, hleft⟩ := parts_shifted d lead lines
  unfold blocks
  generalize parts (lead.map (Line.shift d)) (lines.map (Line.shift d)) = moved at *
  generalize parts lead lines = here at *
  obtain ⟨defs', left'⟩ := moved
  obtain ⟨defs, left⟩ := here
  dsimp only at hdefs hleft ⊢
  rw [hleft, isEmpty_shifted]
  split
  · exact hdefs
  · exact hdefs.append rfl

end Content

namespace Leaf

/-- The leaf, moved by `d` bytes. -/
def shift : Leaf → Leaf
  | .none => .none
  | .underlined => .underlined
  | .content lead lines head =>
    .content (lead.map (Line.shift d)) (lines.map (Line.shift d)) head
  | .indented start stop value waiting => .indented (start + d) (stop + d) value waiting
  | .fence opening value ending => .fence (opening.shift d) value ending
  | .html kind start => .html kind (start + d)
  | .table start stop rows => .table (start + d) (stop + d) (rows.map (Line.shift d))

@[simp] theorem isConcrete_shift (leaf : Leaf) : (leaf.shift d).isConcrete = leaf.isConcrete := by
  cases leaf <;> rfl

@[simp] theorem acceptsLazy_shift (leaf : Leaf) :
    (leaf.shift d).acceptsLazy = leaf.acceptsLazy := by
  cases leaf <;> rfl

end Leaf

/-- The end of a leaf, moved by `d` bytes. -/
def Closing.shift : Closing → Closing
  | .cut stop => .cut (stop + d)
  | .flushed stop next => .flushed (stop + d) (next + d)

namespace Leaf

/-- What a leaf makes that comes to its end. -/
theorem close_shift (leaf : Leaf) (c : Closing) :
    Moved d (leaf.close c) ((leaf.shift d).close (c.shift d)) := by
  cases leaf with
  | content lead lines head => exact Content.blocks_shifted d lead lines
  | fence o value ending =>
    cases c with
    | cut stop => rfl
    | flushed stop next => rfl
  | indented start stop value waiting =>
    cases c with
    | cut stop => rfl
    | flushed stop next => rfl
  | _ => rfl

/-- A leaf takes a line that is moved along in the same way. -/
theorem continue?_shift (leaf : Leaf) (line : Line) (pierced : Bool) :
    (leaf.continue? line pierced = Option.none ∧
        (leaf.shift d).continue? (line.shift d) pierced = Option.none) ∨
      ∃ bs cs next, leaf.continue? line pierced = some (bs, next) ∧
        (leaf.shift d).continue? (line.shift d) pierced = some (cs, next.shift d) ∧
        Moved d bs cs := by
  cases leaf with
  | none => exact Or.inl ⟨rfl, rfl⟩
  | underlined => exact Or.inl ⟨rfl, rfl⟩
  | fence o value ending =>
    simp only [shift, continue?, FenceOpening.closedBy_shift, Glyph.cutSpaces_shifted,
      Glyph.text_shifted, Line.endingText_shift, Line.stop_shift]
    split
    · exact Or.inr ⟨_, _, _, rfl, rfl, rfl⟩
    · exact Or.inr ⟨_, _, _, rfl, rfl, rfl⟩
  | html kind start =>
    simp only [shift, continue?, Line.isBlank_shift, Html.Block.closedBy_shifted]
    split
    · exact Or.inl ⟨rfl, rfl⟩
    · split
      · exact Or.inr ⟨_, _, _, rfl, rfl, rfl⟩
      · exact Or.inr ⟨_, _, _, rfl, rfl, rfl⟩
  | indented start stop value waiting =>
    simp only [shift, continue?, Container.takeIndent?_shifted, Line.isBlank_shift,
      Line.endingText_shift, Line.stop_shift]
    split
    · exact Or.inl ⟨rfl, rfl⟩
    · cases Container.takeIndent? Glyph.tabWidth line.glyphs with
      | some rest =>
        refine Or.inr ⟨_, [], _, rfl, ?_, Moved.nil⟩
        simp only [Option.map_some, Glyph.text_shifted]
      | none =>
        simp only [Option.map_none]
        split
        · exact Or.inr ⟨_, _, _, rfl, rfl, rfl⟩
        · exact Or.inl ⟨rfl, rfl⟩
  | content lead lines head =>
    match lines, head with
    | [], Option.none => exact Or.inl ⟨rfl, rfl⟩
    | [], some cells => exact Or.inl ⟨rfl, rfl⟩
    | l :: ls, Option.none => exact Or.inl ⟨rfl, rfl⟩
    | l :: ls, some cells =>
      simp only [shift, continue?, List.map_cons, Table.isRule_shifted]
      split
      · refine Or.inr ⟨_, _, _, rfl, ?_, Content.blocks_shifted d lead ls⟩
        simp
      · exact Or.inl ⟨rfl, rfl⟩
  | table start stop rows => exact Or.inl ⟨rfl, rfl⟩

end Leaf

/-! ## Starts -/

namespace Start

/-- The start, moved by `d` bytes. -/
def shift : Start → Start
  | .blank => .blank
  | .indented rest single => .indented (shifted d rest) single
  | .fence opening => .fence (opening.shift d)
  | .html kind => .html kind
  | .heading text => .heading (shifted d text)
  | .underline => .underline
  | .thematicBreak => .thematicBreak
  | .row => .row
  | .content head => .content head

@[simp] theorem isContent_shift (s : Start) : (s.shift d).isContent = s.isContent := by
  cases s <;> rfl

@[simp] theorem fence?_shifted (gs : List Glyph) :
    fence? (shifted d gs) = (fence? gs).map (shift d) := by
  rw [fence?, fence?, FenceOpening.read?_shifted]
  cases FenceOpening.read? gs <;> rfl

@[simp] theorem html?_shifted (m : Meeting) (gs : List Glyph) :
    html? m (shifted d gs) = (html? m gs).map (shift d) := by
  rw [html?, html?, Glyph.cutSpaces_shifted, Html.Block.open?_shifted]
  cases Html.Block.open? (m.interrupting && !m.lazy) (Glyph.cutSpaces indentMax gs).2 <;> rfl

@[simp] theorem heading?_shifted (gs : List Glyph) :
    heading? (shifted d gs) = (heading? gs).map (shift d) := by
  rw [heading?, heading?, Heading.text?_shifted]
  cases Heading.text? gs <;> rfl

@[simp] theorem thematicBreak?_shifted (gs : List Glyph) :
    thematicBreak? (shifted d gs) = (thematicBreak? gs).map (shift d) := by
  rw [thematicBreak?, thematicBreak?, isThematicBreak_shifted]
  split <;> rfl

theorem ofAny_shift (leaf : Leaf) (m : Meeting) (line : Line) :
    ofAny (leaf.shift d) m (line.shift d) = (ofAny leaf m line).shift d := by
  have hcode : (if m.interrupting then none
      else Container.takeIndent? Glyph.tabWidth (shifted d line.glyphs)) =
      (if m.interrupting then none
        else Container.takeIndent? Glyph.tabWidth line.glyphs).map (shifted d) := by
    split
    · rfl
    · exact Container.takeIndent?_shifted d Glyph.tabWidth line.glyphs
  have hmarked : (fence? (shifted d line.glyphs)).or
      ((html? m (shifted d line.glyphs)).or (heading? (shifted d line.glyphs))) =
      ((fence? line.glyphs).or ((html? m line.glyphs).or (heading? line.glyphs))).map
        (shift d) := by
    rw [fence?_shifted, html?_shifted, heading?_shifted]
    cases fence? line.glyphs with
    | some s => rfl
    | none => cases html? m line.glyphs <;> rfl
  simp only [ofAny, hcode, hmarked, Line.isBlank_shift, Leaf.acceptsLazy_shift,
    isUnderline_shifted, isThematicBreak_shifted, Table.headSize?_shifted]
  generalize (if m.interrupting then none
    else Container.takeIndent? Glyph.tabWidth line.glyphs) = code
  generalize (fence? line.glyphs).or ((html? m line.glyphs).or (heading? line.glyphs)) = marked
  split
  · rfl
  · cases code with
    | some rest => rfl
    | none =>
      cases marked with
      | some s => rfl
      | none =>
        dsimp only [Option.map_none]
        split
        · rfl
        · split
          · rfl
          · cases leaf with
            | table start stop rows =>
              obtain ⟨interrupting, lazy, pierced⟩ := m
              cases pierced <;> cases lazy <;> rfl
            | _ => rfl

theorem getD_shift (o : Option Start) (s : Start) :
    (o.map (shift d)).getD (s.shift d) = (o.getD s).shift d := by
  cases o <;> rfl

/-- A line that is moved along starts the same. -/
@[simp] theorem ofLine_shift (leaf : Leaf) (m : Meeting) (line : Line) :
    ofLine (leaf.shift d) m (line.shift d) = (ofLine leaf m line).shift d := by
  have hhead : ((shifted d line.glyphs).head?.map (·.char)) = line.glyphs.head?.map (·.char) := by
    cases line.glyphs <;> rfl
  simp only [ofLine, hhead, ofAny_shift, heading?_shifted, fence?_shifted, thematicBreak?_shifted,
    html?_shifted]
  cases line.glyphs.head?.map (·.char) with
  | none => rfl
  | some c =>
    have hgetD : ∀ o : Option Start,
        (o.map (shift d)).getD (.content none) = (o.getD (.content none)).shift d :=
      fun o => getD_shift d o (.content none)
    simp only [hgetD]
    split
    · rfl
    · split
      · rfl
      · split
        · rfl
        · split
          · rfl
          · split <;> rfl

/-- What a line makes on its own. -/
theorem leaf_shift (s : Start) (line : Line) :
    Moved d (s.leaf line).1 ((s.shift d).leaf (line.shift d)).1 ∧
      ((s.shift d).leaf (line.shift d)).2 = (s.leaf line).2.shift d := by
  cases s with
  | indented rest single =>
    simp only [shift, leaf, Glyph.text_shifted, Line.endingText_shift, Line.stop_shift]
    cases single with
    | false => exact ⟨rfl, rfl⟩
    | true => exact ⟨rfl, rfl⟩
  | html kind =>
    simp only [shift, leaf, Glyph.cutSpaces_shifted, Html.Block.closedAtOnce_shifted]
    split
    · exact ⟨rfl, rfl⟩
    · exact ⟨rfl, rfl⟩
  | fence o =>
    simp only [shift, leaf, Line.endingText_shift]
    exact ⟨rfl, rfl⟩
  | row =>
    simp only [shift, leaf, Line.stop_shift]
    exact ⟨rfl, rfl⟩
  | _ => exact ⟨rfl, rfl⟩

end Start

/-- What a line and the open leaf make of each other. -/
theorem Leaf.meet_shift (leaf : Leaf) (s : Start) (line : Line) (stop : Nat) :
    Moved d (leaf.meet s line stop).1
        ((leaf.shift d).meet (s.shift d) (line.shift d) (stop + d)).1 ∧
      ((leaf.shift d).meet (s.shift d) (line.shift d) (stop + d)).2 =
        (leaf.meet s line stop).2.shift d := by
  obtain ⟨hblocks, hnext⟩ := s.leaf_shift d line
  -- what most leaves do: they come to their end, and the line makes the next leaf
  have hclose : Moved d (leaf.close (.cut stop) ++ (s.leaf line).1)
      ((leaf.shift d).close (.cut (stop + d)) ++ ((s.shift d).leaf (line.shift d)).1) :=
    (leaf.close_shift d (.cut stop)).append hblocks
  cases leaf with
  | content lead lines head =>
    cases s with
    | content after => exact ⟨rfl, rfl⟩
    | underline =>
      obtain ⟨hdefs, hleft⟩ := Content.parts_shifted d lead lines
      simp only [shift, Start.shift, meet]
      generalize Content.parts (lead.map (Line.shift d)) (lines.map (Line.shift d)) = moved at *
      generalize Content.parts lead lines = here at *
      obtain ⟨defs', left'⟩ := moved
      obtain ⟨defs, left⟩ := here
      dsimp only at hdefs hleft
      subst hleft
      cases left with
      | nil => exact ⟨hdefs, rfl⟩
      | cons g text => exact ⟨hdefs.append rfl, rfl⟩
    | _ => exact ⟨hclose, hnext⟩
  | table start last rows =>
    cases s with
    | row =>
      simp only [shift, Start.shift, meet, Line.stop_shift]
      exact ⟨rfl, rfl⟩
    | _ => exact ⟨hclose, hnext⟩
  | _ => exact ⟨hclose, hnext⟩

end LiveDoc.Markdown
