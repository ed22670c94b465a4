import LiveDoc.Markdown.Document
import LiveDoc.Proofs.Text.Breaks

/-!
# Indented code

A text whose lines all start with four spaces, and are not blank behind them, is one block of code.

* `Line.read_indentedCode` — what the reader sees of such lines;
* `Reader.foldl_step_indented` — each of them goes into the leaf that the first one opened;
* `ofLines_indentedCode` — so there is one block, from the start of the text to its last line end.
-/

namespace LiveDoc.Markdown

open Text (isUnbroken byteLength byteLength_append)

/-- Lines as indented code: four spaces in front of each of them, and a line feed behind it. -/
def indentedCode (lines : List (List Char)) : List Char :=
  lines.flatMap fun line => [' ', ' ', ' ', ' '] ++ line ++ ['\n']

/-- A line without line ends in it, and with something that is neither a space nor a tab. -/
def IsCodeLine (line : List Char) : Prop :=
  (∀ c ∈ line, isUnbroken c) ∧ ∃ c ∈ line, c ≠ ' ' ∧ c ≠ '\t'

theorem indentedCode_cons (line : List Char) (lines : List (List Char)) :
    indentedCode (line :: lines) =
      ' ' :: ' ' :: ' ' :: ' ' :: (line ++ '\n' :: indentedCode lines) := by
  simp [indentedCode]

theorem byteLength_indentedCode_cons (line : List Char) (lines : List (List Char)) :
    byteLength (indentedCode (line :: lines)) =
      4 + byteLength line + 1 + byteLength (indentedCode lines) := by
  have hspace : ' '.utf8Size = 1 := rfl
  have hend : '\n'.utf8Size = 1 := rfl
  simp only [indentedCode_cons, byteLength, byteLength_append, hspace, hend]
  omega

/-! ## Glyphs of a line -/

/-- Glyphs that stand for a text at a place. -/
structure Glyph.Spell (place : Nat) (text : List Char) (gs : List Glyph) : Prop where
  reads : ∀ last, Glyph.textFrom last gs = text
  stop : Glyph.stopOf place gs = place + byteLength text
  blank : gs.all Glyph.isSpace = text.all fun c => c = ' ' || c = '\t'

namespace Glyph

theorem stopOf_append (place : Nat) (gs hs : List Glyph) :
    stopOf place (gs ++ hs) = stopOf (stopOf place gs) hs := by
  unfold stopOf
  rw [List.getLast?_append]
  cases hs.getLast? <;> rfl

theorem Spell.nil (place : Nat) : Spell place [] [] := ⟨fun _ => rfl, rfl, rfl⟩

theorem Spell.cons {place : Nat} {c : Char} {text : List Char} {gs : List Glyph}
    (h : Spell (place + c.utf8Size) text gs) (before after : Option Char) :
    Spell place (c :: text) (⟨c, [c], place, place + c.utf8Size, 0, before, after⟩ :: gs) := by
  refine ⟨?_, ?_, ?_⟩
  · intro last
    rw [textFrom, h.reads]
    rfl
  · rw [← List.singleton_append, stopOf_append, byteLength, ← Nat.add_assoc]
    exact h.stop
  · rw [List.all_cons, List.all_cons, h.blank]
    rfl

/-- The columns of a tab behind its first one have no text of their own. -/
theorem textFrom_columns {place : Nat} {columns : List Glyph}
    (h : ∀ g ∈ columns, g.start = place ∧ g.source = []) (gs : List Glyph) :
    textFrom (some place) (columns ++ gs) = textFrom (some place) gs := by
  induction columns with
  | nil => rfl
  | cons g columns ih =>
    obtain ⟨hstart, hsource⟩ := h g List.mem_cons_self
    have hmore := ih fun d hd => h d (List.mem_cons_of_mem g hd)
    rw [List.cons_append, textFrom, hstart, hsource, if_pos (by simp), hmore]
    rfl

/-- All columns of a tab stand for one tab. -/
theorem Spell.tab {place : Nat} {text : List Char} {gs : List Glyph}
    (h : Spell (place + 1) text gs) (column : Nat) (before after : Option Char) :
    Spell place ('\t' :: text) (Line.tabColumns place column before after ++ gs) := by
  have hwidth : 0 < tabWidth - column % tabWidth :=
    Nat.sub_pos_of_lt (Nat.mod_lt column (by decide))
  obtain ⟨w, hw⟩ : ∃ w, tabWidth - column % tabWidth = w + 1 :=
    ⟨tabWidth - column % tabWidth - 1, by omega⟩
  refine ⟨?_, ?_, ?_⟩
  · -- the first column has the text of the tab
    intro last
    simp only [Line.tabColumns, hw, List.range_succ_eq_map, List.map_cons, List.map_map,
      List.cons_append, textFrom]
    rw [textFrom_columns, h.reads]
    · rfl
    · intro g hg
      obtain ⟨i, -, rfl⟩ := List.mem_map.mp hg
      exact ⟨rfl, rfl⟩
  · -- the last column ends where the tab does
    have hstop : stopOf place (Line.tabColumns place column before after) = place + 1 := by
      simp only [Line.tabColumns, hw, List.range_succ, List.map_append, stopOf_append]
      by_cases hzero : w = 0 <;> simp [stopOf, hzero]
    have hsize : '\t'.utf8Size = 1 := rfl
    rw [stopOf_append, hstop, h.stop, byteLength, hsize, Nat.add_assoc]
  · rw [List.all_append, List.all_cons, h.blank]
    have hcolumns : (Line.tabColumns place column before after).all isSpace = true := by
      rw [List.all_eq_true]
      intro g hg
      obtain ⟨i, -, rfl⟩ := List.mem_map.mp hg
      by_cases hi : i = 0 <;> simp [hi, isSpace]
    rw [hcolumns]
    rfl

end Glyph

/-! ## Lines of code -/

/-- A line of indented code as the reader sees it: four spaces, and the glyphs of its text. -/
structure IndentedLine (place : Nat) (text : List Char) (l : Line) : Prop where
  start : l.start = place
  first : ∀ p, Glyph.startOf p l.glyphs = place
  stop : l.stop = place + 4 + byteLength text
  ending : endingText l = ['\n']
  glyphs : ∃ a b c d rest, l.glyphs = a :: b :: c :: d :: rest ∧ a.char = ' ' ∧ b.char = ' ' ∧
    c.char = ' ' ∧ d.char = ' ' ∧ Glyph.text rest = text ∧ rest.all Glyph.isSpace = false

/-- Lines of indented code one after the other, from a place on. -/
inductive IndentedLines : (place : Nat) → List (List Char) → List Line → Prop
  | nil {place : Nat} : IndentedLines place [] []
  | cons {place : Nat} {text : List Char} {texts : List (List Char)} {l : Line} {ls : List Line} :
      IndentedLine place text l → IndentedLines (place + 4 + byteLength text + 1) texts ls →
        IndentedLines place (text :: texts) (l :: ls)

namespace Line

theorem read_plain {c : Char} (hc : isUnbroken c) (htab : c ≠ '\t')
    (lineStart place column : Nat) (before : Option Char) (glyphs : List Glyph)
    (rest : List Char) :
    read lineStart place column before glyphs (c :: rest) =
      read lineStart (place + c.utf8Size) (column + c.utf8Size) (some c)
        (⟨c, [c], place, place + c.utf8Size, 0, before, rest.head?⟩ :: glyphs) rest := by
  rw [read, if_neg (by simp [hc.1, hc.2]), if_neg htab]
  intro more hcr _
  exact absurd hcr hc.2

theorem read_tab (lineStart place column : Nat) (before : Option Char) (glyphs : List Glyph)
    (rest : List Char) :
    ∃ columns, columns = tabColumns place column before rest.head? ∧
      read lineStart place column before glyphs ('\t' :: rest) =
        read lineStart (place + 1) (column + columns.length) (some '\t')
          (columns.reverse ++ glyphs) rest := by
  refine ⟨_, rfl, ?_⟩
  rw [read, if_neg (by decide), if_pos rfl]
  simp

/-- A text without line ends is read into glyphs that stand for it. -/
theorem read_text {text : List Char} (h : ∀ c ∈ text, isUnbroken c) (lineStart place column : Nat)
    (before : Option Char) (glyphs : List Glyph) (rest : List Char) :
    ∃ gs column' before', Glyph.Spell place text gs ∧
      read lineStart place column before glyphs (text ++ rest) =
        read lineStart (place + byteLength text) column' before' (gs.reverse ++ glyphs) rest := by
  induction text generalizing place column before glyphs with
  | nil => exact ⟨[], column, before, .nil place, rfl⟩
  | cons c text ih =>
    have hmore := fun d hd => h d (List.mem_cons_of_mem c hd)
    rw [List.cons_append, byteLength, ← Nat.add_assoc]
    by_cases htab : c = '\t'
    · subst htab
      obtain ⟨columns, hcolumns, hread⟩ :=
        read_tab lineStart place column before glyphs (text ++ rest)
      obtain ⟨gs, column', before', hspell, hgoes⟩ := ih hmore (place + 1)
        (column + columns.length) (some '\t') (columns.reverse ++ glyphs)
      refine ⟨columns ++ gs, column', before', hcolumns ▸ hspell.tab column before _, ?_⟩
      rw [hread, hgoes, List.reverse_append, List.append_assoc]
      rfl
    · obtain ⟨gs, column', before', hspell, hgoes⟩ := ih hmore (place + c.utf8Size)
        (column + c.utf8Size) (some c)
        (⟨c, [c], place, place + c.utf8Size, 0, before, (text ++ rest).head?⟩ :: glyphs)
      refine ⟨_ :: gs, column', before', hspell.cons before (text ++ rest).head?, ?_⟩
      rw [read_plain (h c List.mem_cons_self) htab, hgoes, List.reverse_cons, List.append_assoc]
      rfl

/-- A line of code is read up to its line end. -/
theorem read_indentedLine {text : List Char} (h : IsCodeLine text) (place : Nat)
    (before : Option Char) (rest : List Char) :
    ∃ l, IndentedLine place text l ∧
      read place place 0 before [] (' ' :: ' ' :: ' ' :: ' ' :: (text ++ '\n' :: rest)) =
        l :: read (place + 4 + byteLength text + 1) (place + 4 + byteLength text + 1) 0 (some '\n')
          [] rest := by
  obtain ⟨hunbroken, c, hc, hspace, htab⟩ := h
  have hplain : isUnbroken ' ' := ⟨by decide, by decide⟩
  have hsize : ' '.utf8Size = 1 := rfl
  simp only [read_plain hplain (by decide : ' ' ≠ '\t'), hsize]
  obtain ⟨gs, column, before', hspell, hread⟩ := read_text hunbroken place (place + 1 + 1 + 1 + 1)
    (0 + 1 + 1 + 1 + 1) (some ' ') _ ('\n' :: rest)
  rw [hread, read, if_pos (by decide), List.reverse_append, List.reverse_reverse]
  · refine ⟨_, ⟨rfl, fun _ => rfl, ?_, rfl,
      _, _, _, _, gs, rfl, rfl, rfl, rfl, rfl, hspell.reads none, ?_⟩, rfl⟩
    · rw [Line.stop, Glyph.stopOf_append]
      exact hspell.stop
    · rw [hspell.blank, List.all_eq_false]
      exact ⟨c, hc, by simp [hspace, htab]⟩
  · intro more hcr _
    exact absurd hcr (by decide)

/-- What the reader sees of lines of code. -/
theorem read_indentedCode {lines : List (List Char)} (h : ∀ line ∈ lines, IsCodeLine line)
    (place : Nat) (before : Option Char) :
    IndentedLines place lines (read place place 0 before [] (indentedCode lines)) := by
  induction lines generalizing place before with
  | nil => exact .nil
  | cons line lines ih =>
    obtain ⟨l, hl, hread⟩ :=
      read_indentedLine (h line List.mem_cons_self) place before (indentedCode lines)
    rw [indentedCode_cons, hread]
    exact .cons hl (ih (fun m hm => h m (List.mem_cons_of_mem line hm)) _ _)

end Line

/-! ## One line after the other -/

namespace IndentedLine

variable {place : Nat} {text : List Char} {l : Line}

/-- Four spaces start no container. -/
theorem open?_eq_none (h : IndentedLine place text l) (interrupting : Bool) :
    Container.open? interrupting l.glyphs = none := by
  obtain ⟨a, b, c, d, rest, hglyphs, ha, hb, hc, hd, -, -⟩ := h.glyphs
  have hcut : Glyph.cutSpaces indentMax l.glyphs = ([a, b, c], d :: rest) := by
    simp [hglyphs, indentMax, Glyph.cutSpaces, Glyph.isSpace, ha, hb, hc]
  have hquote : Container.takeQuote? l.glyphs = none := by
    simp [Container.takeQuote?, hcut, hd]
  have hitem : Container.openItem? interrupting l.glyphs = none := by
    rw [Container.openItem?, hcut]
    simp [hglyphs, Container.itemMarker?, hd]
  have hfootnote : Container.openFootnote? l.glyphs = none := by
    rw [Container.openFootnote?, hcut]
    cases rest <;> simp [hd]
  rw [Container.open?, hquote, hitem, hfootnote]
  rfl

theorem isBlank_eq_false (h : IndentedLine place text l) : l.isBlank = false := by
  obtain ⟨a, b, c, d, rest, hglyphs, -, -, -, -, -, hblank⟩ := h.glyphs
  rw [Line.isBlank, hglyphs]
  simp [hblank]

theorem takeIndent? (h : IndentedLine place text l) :
    ∃ rest, Container.takeIndent? Glyph.tabWidth l.glyphs = some rest ∧ Glyph.text rest = text := by
  obtain ⟨a, b, c, d, rest, hglyphs, ha, hb, hc, hd, htext, -⟩ := h.glyphs
  refine ⟨rest, ?_, htext⟩
  simp [Container.takeIndent?, hglyphs, Glyph.tabWidth, Glyph.cutSpaces, Glyph.isSpace, ha, hb, hc,
    hd]

theorem cutTo_glyphs (h : IndentedLine place text l) : l.cutTo l.glyphs = l := by
  rw [Line.cutTo, h.first, ← h.start]

/-- Without containers, the line goes to the leaf as a whole. -/
theorem step (h : IndentedLine place text l) {r : Reader} (hframes : r.frames = [])
    (hleaf : r.leaf.isConcrete = false) :
    r.step l = { r.feed l 0 false with stop := l.stop, next := l.next } := by
  have hsame : { r with frames := [] } = r := by rw [← hframes]
  unfold Reader.step
  rw [hframes]
  simp only [List.reverse_nil, Reader.continued, List.length_nil, Nat.sub_self, List.take_zero,
    List.append_nil, hsame, hleaf, Bool.and_false, Bool.false_eq_true, if_false]
  rw [Reader.opened, h.open?_eq_none]
  dsimp only
  rw [h.cutTo_glyphs]
  rfl

/-- The first line opens a leaf of code. -/
theorem step_empty (h : IndentedLine place text l) : Reader.empty.step l =
    ⟨[], [], .indented place l.stop [text] [['\n']], false, l.stop, l.next⟩ := by
  obtain ⟨rest, hindent, htext⟩ := h.takeIndent?
  have hstart : Start.ofLine .none ⟨false, false, false⟩ l = .indented rest false := by
    obtain ⟨a, b, c, d, more, hglyphs, ha, -⟩ := h.glyphs
    have hhead : l.glyphs.head?.map (·.char) = some ' ' := by rw [hglyphs, ← ha]; rfl
    rw [Start.ofLine, hhead]
    simp only [Start.ofAny, h.isBlank_eq_false, hindent]
    rfl
  rw [h.step rfl rfl, Reader.feed]
  simp only [Reader.empty, Leaf.continue?, ne_eq, not_true_eq_false, decide_false, Bool.not_false,
    Bool.and_true, Bool.false_eq_true, if_false, Bool.false_and, hstart]
  simp [Leaf.meet, Start.leaf, Leaf.close, Start.isContent, Reader.push, htext, h.ending, h.start]

/-- Every other line goes into it. -/
theorem step_indented (h : IndentedLine place text l) (stop : Nat) (value : List (List Char))
    (next : Nat) :
    Reader.step ⟨[], [], .indented 0 stop value [['\n']], false, stop, next⟩ l =
      ⟨[], [], .indented 0 l.stop (text :: ['\n'] :: value) [['\n']], false, l.stop, l.next⟩ := by
  obtain ⟨rest, hindent, htext⟩ := h.takeIndent?
  rw [h.step rfl rfl, Reader.feed]
  simp only [Leaf.continue?, hindent, htext, h.ending]
  rfl

end IndentedLine

/-! ## One block -/

/-- All further lines go into the leaf that the first line opened. -/
theorem Reader.foldl_step_indented {place : Nat} {texts : List (List Char)} {ls : List Line}
    (h : IndentedLines place texts ls) (stop next : Nat) (value : List (List Char))
    (hplace : place = stop + 1) :
    ∃ stop' next' value',
      ls.foldl Reader.step ⟨[], [], .indented 0 stop value [['\n']], false, stop, next⟩ =
        ⟨[], [], .indented 0 stop' value' [['\n']], false, stop', next'⟩ ∧
      stop' + 1 = place + byteLength (indentedCode texts) ∧
      value'.reverse.flatten = value.reverse.flatten ++ texts.flatMap ('\n' :: ·) := by
  induction h generalizing stop next value with
  | nil => exact ⟨stop, next, value, rfl, hplace.symm, by simp⟩
  | @cons place text texts l ls hl _ ih =>
    obtain ⟨stop', next', value', hfold, hstop, hvalue⟩ :=
      ih l.stop l.next (text :: ['\n'] :: value) (by rw [hl.stop])
    refine ⟨stop', next', value', ?_, ?_, ?_⟩
    · rw [List.foldl_cons, hl.step_indented]
      exact hfold
    · rw [hstop, byteLength_indentedCode_cons]
      omega
    · rw [hvalue]
      simp

theorem join_lineFeed (first : List Char) (rest : List (List Char)) :
    Text.join ['\n'] (first :: rest) = first ++ rest.flatMap ('\n' :: ·) := by
  induction rest generalizing first with
  | nil => simp [Text.join]
  | cons next rest ih => rw [Text.join, ih]; simp

/-- The value of code is not cut at its end when no line end stands there. -/
theorem valueOf_eq {pieces : List (List Char)} {front : List Char} {c : Char}
    (h : pieces.reverse.flatten = front ++ [c]) (hc : isUnbroken c) :
    valueOf pieces false = front ++ [c] := by
  rw [valueOf, h]
  simp only [Bool.false_eq_true, if_false, List.reverse_append, List.reverse_singleton,
    List.singleton_append]
  split
  · next heq => exact absurd (List.cons.inj heq).1 hc.1
  · next d rest _ heq =>
    obtain ⟨rfl, rfl⟩ := List.cons.inj heq
    rw [if_neg (by simp [hc.1, hc.2])]
  · next heq => cases heq

/-- The last character of lines of code is no line end. -/
theorem join_eq_append_singleton {first : List Char} {rest : List (List Char)}
    (h : ∀ line ∈ first :: rest, IsCodeLine line) :
    ∃ front c, Text.join ['\n'] (first :: rest) = front ++ [c] ∧ isUnbroken c := by
  induction rest generalizing first with
  | nil =>
    obtain ⟨hunbroken, c, hc, -⟩ := h first List.mem_cons_self
    have hne : first ≠ [] := List.ne_nil_of_mem hc
    refine ⟨first.dropLast, first.getLast hne, ?_, hunbroken _ (List.getLast_mem hne)⟩
    rw [Text.join, List.dropLast_concat_getLast]
  | cons next rest ih =>
    obtain ⟨front, c, hjoin, hc⟩ := ih fun line hline => h line (List.mem_cons_of_mem first hline)
    refine ⟨first ++ '\n' :: front, c, ?_, hc⟩
    rw [Text.join, hjoin]
    simp

/-- **Indented code is one block**, whatever its lines say. -/
theorem ofLines_indentedCode {first : List Char} {rest : List (List Char)}
    (h : ∀ line ∈ first :: rest, IsCodeLine line) :
    Block.ofLines (Line.ofText (indentedCode (first :: rest))) =
      [.code ⟨0, byteLength (indentedCode (first :: rest)) - 1⟩ none none
        (Text.join ['\n'] (first :: rest))] := by
  have hlines := Line.read_indentedCode h 0 none
  have hread : Line.ofText (indentedCode (first :: rest)) =
      Line.read 0 0 0 none [] (indentedCode (first :: rest)) := by
    rw [Line.ofText]
    rw [indentedCode_cons]
    rintro more ⟨⟩
  rw [hread]
  generalize Line.read 0 0 0 none [] (indentedCode (first :: rest)) = ls at hlines
  cases hlines with
  | @cons _ _ _ l ls hl hls =>
    obtain ⟨stop, next, value, hfold, hstop, hvalue⟩ :=
      Reader.foldl_step_indented hls l.stop l.next [first] (by rw [hl.stop])
    obtain ⟨front, c, hjoin, hc⟩ := join_eq_append_singleton h
    have htext : value.reverse.flatten = Text.join ['\n'] (first :: rest) := by
      rw [hvalue, join_lineFeed]
      simp
    have hend : stop = byteLength (indentedCode (first :: rest)) - 1 := by
      rw [byteLength_indentedCode_cons]
      omega
    rw [Block.ofLines, List.foldl_cons, hl.step_empty, hfold]
    show [Block.code ⟨0, stop⟩ none none (valueOf value false)] = _
    rw [valueOf_eq (htext.trans hjoin) hc, hjoin, hend]

/-- The node of indented code. -/
theorem ofMarkdown_indentedCode {first : List Char} {rest : List (List Char)}
    (h : ∀ line ∈ first :: rest, IsCodeLine line) :
    Node.ofMarkdown (indentedCode (first :: rest)) =
      .element .root (some ⟨0, byteLength (indentedCode (first :: rest))⟩)
        [.code (some ⟨0, byteLength (indentedCode (first :: rest)) - 1⟩) none none
          (String.ofList (Text.join ['\n'] (first :: rest)))] := by
  rw [Node.ofMarkdown, ofLines_indentedCode h]
  rfl

end LiveDoc.Markdown
