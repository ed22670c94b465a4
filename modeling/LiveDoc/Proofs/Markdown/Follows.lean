import LiveDoc.Proofs.Markdown.Alike
import LiveDoc.Proofs.Markdown.Paragraph

/-!
# Readers of the same lines in different texts
-/

namespace LiveDoc.Markdown

namespace Mark

theorem shift_zero (m : Mark) : m.shift 0 = m := by cases m <;> rfl

theorem map_shift_zero (ms : List Mark) : ms.map (Mark.shift 0) = ms := by
  rw [show Mark.shift 0 = id from funext shift_zero, List.map_id]

end Mark

namespace Reader

/-- A reader `r` that has read the same lines as `v`, but `d` bytes further on, behind blocks with
the marks `front`, reversed, and with whatever around each glyph. -/
structure Follows (d : Nat) (front : List Mark) (v r : Reader) : Prop where
  blocks : marks r.blocks = (marks v.blocks).map (Mark.shift d) ++ front
  containers : r.frames.map Frame.container = v.frames.map Frame.container
  leaf : r.leaf.shift 0 = v.leaf.shift d
  interrupting : r.interrupting = v.interrupting
  stop : r.stop = v.stop + d
  next : r.next = v.next + d

/-- The reader without what stands around the glyphs of its leaf. -/
def bare (r : Reader) : Reader := { r with leaf := r.leaf.shift 0 }

theorem alike_bare (r : Reader) : Alike 0 [] r r.bare :=
  ⟨by rw [Mark.map_shift_zero, List.append_nil]; rfl, rfl, rfl, rfl, rfl, rfl⟩

namespace Follows

variable {d : Nat} {front : List Mark} {v r : Reader}

theorem alike (h : Follows d front v r) : Alike d front v r.bare :=
  ⟨h.blocks, h.containers, h.leaf, h.interrupting, h.stop, h.next⟩

theorem of_alike {s : Reader} (hr : Alike 0 [] r s) (hv : Alike d front v s) :
    Follows d front v r := by
  have hblocks := hr.blocks
  rw [Mark.map_shift_zero, List.append_nil, hv.blocks] at hblocks
  refine ⟨hblocks.symm, ?_, ?_, ?_, ?_, ?_⟩
  · rw [← hr.containers, hv.containers]
  · rw [← hr.leaf, hv.leaf]
  · rw [← hr.interrupting, hv.interrupting]
  · exact hr.stop.symm.trans hv.stop
  · exact hr.next.symm.trans hv.next

/-- Readers of the same line go on alike. -/
theorem step (h : Follows d front v r) {line line' : Line} (hline : line'.shift 0 = line.shift d) :
    Follows d front (v.step line) (r.step line') := by
  have hr := r.alike_bare.step line'
  rw [hline] at hr
  exact of_alike hr (h.alike.step line)

theorem foldl (h : Follows d front v r) {lines lines' : List Line}
    (hlines : lines'.map (Line.shift 0) = lines.map (Line.shift d)) :
    Follows d front (lines.foldl Reader.step v) (lines'.foldl Reader.step r) := by
  have hr := r.alike_bare.foldl lines'
  rw [hlines] at hr
  exact of_alike hr (h.alike.foldl lines)

theorem flush (h : Follows d front v r) (count : Nat) :
    Follows d front (v.flush count) (r.flush count) :=
  of_alike (r.alike_bare.flush count) (h.alike.flush count)

theorem length_frames (h : Follows d front v r) : r.frames.length = v.frames.length :=
  h.alike.length_frames

theorem cut (h : Follows d front v r) :
    marks r.cut.blocks = (marks v.cut.blocks).map (Mark.shift d) ++ front := by
  have hclose := v.leaf.close_shift d (.cut v.stop)
  have hclose' := r.leaf.close_shift 0 (.cut r.stop)
  have hleaf : r.bare.leaf = v.leaf.shift d := h.leaf
  have hsame : (Closing.cut r.stop).shift 0 = (Closing.cut v.stop).shift d := by
    rw [Closing.shift, Closing.shift, h.stop]
    rfl
  rw [hsame] at hclose'
  have hcut := (r.alike_bare.push hclose').closeFrames r.stop r.stop r.frames.length
  rw [← hleaf] at hclose
  have hcut' := (h.alike.push hclose).closeFrames v.stop r.stop v.frames.length
  rw [← h.length_frames] at hcut'
  have hboth := hcut.blocks.symm.trans hcut'.blocks
  rw [Mark.map_shift_zero, List.append_nil] at hboth
  unfold Reader.cut
  rw [hboth, h.length_frames]

theorem frames_eq_nil_iff (h : Follows d front v r) : r.frames = [] ↔ v.frames = [] := by
  rw [← List.length_eq_zero_iff, ← List.length_eq_zero_iff, h.length_frames]

/-- What a leaf is does not depend on where its text stands. -/
theorem leaf_congr (h : Follows d front v r) {α : Type} {f : Leaf → α}
    (hf : ∀ (e : Nat) (leaf : Leaf), f (leaf.shift e) = f leaf) : f r.leaf = f v.leaf := by
  rw [← hf 0, h.leaf, hf]

theorem ready_iff (h : Follows d front v r) (c : Char) : r.Ready c ↔ v.Ready c := by
  have hgives := h.leaf_congr (f := Leaf.givesWay c) fun e leaf => by cases leaf <;> rfl
  have hlazy := h.leaf_congr Leaf.acceptsLazy_shift
  have hlast : r.frames.getLast?.map Frame.container = v.frames.getLast?.map Frame.container := by
    rw [← List.getLast?_map, ← List.getLast?_map, h.containers]
  constructor
  · intro hready
    cases hready with
    | outside hframes hleaf =>
      exact .outside (h.frames_eq_nil_iff.mp hframes) (hgives ▸ hleaf)
    | inside hf hasks hleaf =>
      rw [hf, Option.map_some] at hlast
      obtain ⟨g, hg, hcontainer⟩ := Option.map_eq_some_iff.mp hlast.symm
      exact .inside hg (hcontainer ▸ hasks) (hlazy ▸ hleaf)
  · intro hready
    cases hready with
    | outside hframes hleaf =>
      exact .outside (h.frames_eq_nil_iff.mpr hframes) (hgives ▸ hleaf)
    | inside hf hasks hleaf =>
      rw [hf, Option.map_some] at hlast
      obtain ⟨g, hg, hcontainer⟩ := Option.map_eq_some_iff.mp hlast
      exact .inside hg (hcontainer ▸ hasks) (hlazy ▸ hleaf)

end Follows

/-- A reader of lines that stand behind the end of a line with the given size. Nothing is open, but
the line may be one of text. -/
def fresh (interrupting : Bool) (next : Nat) : Reader := ⟨[], [], .none, interrupting, 0, next⟩

theorem follows_clear {r : Reader} {n : Nat} (hnext : r.next = r.stop + n) :
    Follows r.stop [] (fresh r.interrupting n) r.clear :=
  ⟨rfl, rfl, rfl, rfl, (Nat.zero_add _).symm, by rw [Nat.add_comm] at hnext; exact hnext⟩

theorem Follows.behind {d : Nat} {v r : Reader} (h : Follows d [] v r) (more : List Block) :
    Follows d (marks more) v (r.behind more) := by
  have hblocks := h.blocks
  rw [List.append_nil] at hblocks
  refine ⟨?_, h.containers, h.leaf, h.interrupting, h.stop, h.next⟩
  show marks (r.blocks ++ more) = _
  rw [marks_append, hblocks]

/-! ## Lines behind a paragraph -/

theorem ends_shift {interrupting : Bool} {l : Line} (d : Nat) :
    Ends interrupting (l.shift d) ↔ Ends interrupting l := by
  have hstart := Start.ofLine_shift d .none ⟨interrupting, false, false⟩ l
  rw [show Leaf.shift d .none = .none from rfl] at hstart
  unfold Ends
  rw [hstart, Start.isContent_shift, isUnderline_shifted, Container.open?_shifted]
  simp

theorem goesOn_shift {interrupting : Bool} {l : Line} {head : Option Nat} (d : Nat) :
    GoesOn interrupting (l.shift d) head ↔ GoesOn interrupting l head := by
  have hstart := Start.ofLine_shift d .none ⟨interrupting, false, false⟩ l
  rw [show Leaf.shift d .none = .none from rfl] at hstart
  have hiff : (Start.ofLine .none ⟨interrupting, false, false⟩ l).shift d = .content head ↔
      Start.ofLine .none ⟨interrupting, false, false⟩ l = .content head := by
    cases Start.ofLine .none ⟨interrupting, false, false⟩ l <;> simp [Start.shift]
  constructor
  · rintro ⟨hopen, hs, hunderline⟩
    rw [hstart, hiff] at hs
    rw [isUnderline_shifted] at hunderline
    rw [Container.open?_shifted, Option.map_eq_none_iff] at hopen
    exact ⟨hopen, hs, hunderline⟩
  · rintro ⟨hopen, hs, hunderline⟩
    refine ⟨?_, ?_, ?_⟩
    · rw [Container.open?_shifted, hopen]
      rfl
    · rw [hstart, hiff]
      exact hs
    · rw [isUnderline_shifted]
      exact hunderline

namespace InText

variable {r : Reader} {lines : List Line} {l l₀ : Line} {n : Nat}

/-- Behind a paragraph that a line ends, the reading goes on as from that line. -/
theorem follows_ends {lead : Option Line} (h : r.InText lead lines) (hplaced : l.cutTo l.glyphs = l)
    (hnext : r.next = r.stop + n) (hline : l.shift 0 = l₀.shift r.stop)
    (hends : Ends r.interrupting l) :
    Follows r.stop (marks ((Content.blocks lead lines).reverse ++ r.blocks))
      ((fresh r.interrupting n).step l₀) (r.step l) := by
  rw [h.step_ends hplaced hends]
  exact ((follows_clear hnext).step hline).behind _

/-- A line that goes on with a paragraph starts one where there is none. -/
theorem step_goesOn_none {head : Option Nat} (hframes : r.frames = []) (hleaf : r.leaf = .none)
    (hplaced : l.cutTo l.glyphs = l) (hgoes : GoesOn r.interrupting l head) :
    r.step l = ⟨r.blocks, [], .content none [l] head, true, l.stop, l.next⟩ := by
  rw [step_of_open?_eq_none hframes hgoes.container hplaced]
  unfold feed push
  simp only [ne_eq, not_true_eq_false, decide_false, Bool.false_eq_true, if_false, hleaf,
    Leaf.continue?, Bool.not_false, Bool.and_true, Bool.false_and, hgoes.start, hframes]
  rfl

/-- Behind a paragraph on which a table follows, the reading goes on as from the head of the
table. -/
theorem follows_table {h₁ h₀ : Line} {cells : Nat} (h : r.InText none lines)
    (hplaced₁ : h₁.cutTo h₁.glyphs = h₁) (hplaced : l.cutTo l.glyphs = l)
    (hinterrupting : r.interrupting = true) (hnext : r.next = r.stop + n)
    (hhead : h₁.shift 0 = h₀.shift r.stop) (hline : l.shift 0 = l₀.shift r.stop)
    (hgoes : GoesOn true h₁ (some cells)) (htaken : r.leaf.continue? h₁ false = none)
    (hopen : Container.open? true l.glyphs = none) (hrule : Table.isRule cells l.glyphs = true) :
    Follows r.stop (marks ((Content.blocks none lines).reverse ++ r.blocks))
      (((fresh true n).step h₀).step l₀) ((r.step h₁).step l) := by
  have hgoes' : GoesOn r.interrupting h₁ (some cells) := hinterrupting ▸ hgoes
  have hmiddle := h.step_goesOn hplaced₁ hgoes' htaken
  have hclear : r.clear.step h₁ = _ := step_goesOn_none (r := r.clear) rfl rfl hplaced₁ hgoes'
  have hrow := @step_rule (r.step h₁) l none h₁ lines cells (by rw [hmiddle]) (by rw [hmiddle])
    hplaced (by rw [hmiddle]; exact hopen) hrule
  have hrow' := @step_rule (r.clear.step h₁) l none h₁ [] cells (by rw [hclear]) (by rw [hclear])
    hplaced (by rw [hclear]; exact hopen) hrule
  have hboth : (r.step h₁).step l =
      ((r.clear.step h₁).step l).behind ((Content.blocks none lines).reverse ++ r.blocks) := by
    rw [hrow, hrow', hmiddle, hclear]
    rfl
  have hfollows := (follows_clear hnext).step hhead
  rw [hinterrupting] at hfollows
  rw [hboth]
  exact (hfollows.step hline).behind _

end InText

end Reader

end LiveDoc.Markdown
