import LiveDoc.Proofs.Layout.FenceShape
import LiveDoc.Proofs.Layout.FenceText

/-!
# A fence in place of another one

The lines of a fence that is closed by a line may be exchanged for those of the fence that is
written in its place (`Outline.Parts.exists_swap`): all that is read before comes to its end in the
same way, the code says what the new opening does, and the lines behind are read with the same
containers open.
-/

namespace LiveDoc.Markdown

open Text (byteLength)
open Layout (leadingRun leadingRun_replicate Closed Inert fenceLines)

/-- Whether a line closes a fence, by its text. -/
theorem FenceOpening.closedBy_eq {op : FenceOpening} {W gs : List Glyph} {t : List Char}
    (hW : Indents W) (hgs : Solid gs) (h : Spelled t gs)
    (hmarker : op.marker = '`' ∨ op.marker = '~') :
    op.closedBy (W ++ gs) = (decide (op.length ≤ leadingRun op.marker t) &&
      (t.dropWhile (· = op.marker)).all Layout.isGap) := by
  have hspace : (decide (' ' = op.marker)) = false := by
    rcases hmarker with h | h <;> rw [h] <;> rfl
  have htab : (decide ('\t' = op.marker)) = false := by rcases hmarker with h | h <;> rw [h] <;> rfl
  have hlength := congrArg List.length (h.map_takeWhile (p := fun d => d = op.marker) hspace htab)
  rw [List.length_map] at hlength
  obtain ⟨-, hrest⟩ := h.span (p := fun d => d = op.marker) (htab.trans hspace.symm)
  have hblank := hrest.all_eq (p := Layout.isGap) rfl
  unfold closedBy
  rw [hW.cutSpaces hgs]
  dsimp only
  rw [hlength, ← hblank]
  rfl

namespace Outline

variable {o : Outline} {p : Nat} {op : FenceOpening} {margin : List Char} {cs : List Container}

/-- A line that holds something behind the margin lacks no container. -/
theorem exists_behind_margin (h : IsMargin cs margin)
    (hcs : o.containers.map Container.settle = cs.map Container.settle) {text : List Char}
    (ending : List Char) (hsolid : ∀ place column, Solid (glyphsAt place column text)) :
    ∃ W column, Indents W ∧ o.Keeps (RawLine.lineAt p ⟨margin ++ text, ending⟩) ∧
      o.behind (RawLine.lineAt p ⟨margin ++ text, ending⟩) =
        W ++ glyphsAt (p + byteLength margin) column text ∧
      o.kept (RawLine.lineAt p ⟨margin ++ text, ending⟩) = cs.map Container.settle := by
  obtain ⟨column, hglyphs⟩ := exists_glyphsAt_append p 0 margin text
  obtain ⟨W, hW, hcontinued⟩ := h o.containers p _ hcs (hsolid (p + byteLength margin) column)
  have hline : (RawLine.lineAt p ⟨margin ++ text, ending⟩).glyphs =
      glyphsAt p 0 margin ++ glyphsAt (p + byteLength margin) column text := hglyphs
  refine ⟨W, column, hW, ?_, ?_, ?_⟩
  · rw [Keeps, hline, hcontinued]
    simp
  · rw [behind, hline, hcontinued]
  · rw [kept, hline, hcontinued, hcs, List.reverse_reverse]

theorem solid_glyphsAt {c : Char} {text : List Char} (hhead : text.head? = some c)
    (hspace : c ≠ ' ') (htab : c ≠ '\t') (hquote : c ≠ '>') (place column : Nat) :
    Solid (glyphsAt place column text) := by
  obtain ⟨rest, rfl⟩ := List.head?_eq_some_iff.mp hhead
  rw [glyphsAt, if_neg htab]
  exact ⟨_, _, rfl, by simp [Glyph.isSpace, hspace, htab], hquote⟩

/-- A fence in its parts: what stands in front of the markers of its first and its last line, and
behind. -/
structure Parts (o : Outline) (p : Nat) (op : FenceOpening) (first last : RawLine)
    (front opening margin run : List Char) : Prop extends OpensAt o p op first front opening where
  lastText : last.text = margin ++ run
  closed : Closed op.marker opening margin run
  isMargin : IsMargin (o.step (first.lineAt p)).2.containers margin

variable {first last : RawLine} {after : Outline} {front opening run : List Char}

/-- The parts of a fence that a line closes behind the same containers. -/
theorem OpensAt.exists_parts {q : Nat} (h : o.OpensAt p op first front opening)
    (hclosed : after.ClosedBy op (last.lineAt q))
    (hcs : after.containers = (o.step (first.lineAt p)).2.containers) :
    ∃ margin run, Parts o p op first last front opening margin run := by
  obtain ⟨margin, run, hlast, hcloses, hbefore, hle, hbehind, hmargin⟩ :=
    exists_closing hclosed h.marker h.lengthMin
  rw [hcs] at hmargin
  exact ⟨margin, run, h, hlast, ⟨h.marker, h.starts, hbefore, hcloses, h.length ▸ hle, hbehind⟩,
    hmargin⟩

/-- A line that closes a fence. -/
theorem step_last {value : List (List Char)} {ending : List Char} (last : List Char)
    (hleaf : o.leaf = .fence op value ending) (hmargin : IsMargin cs margin)
    (hcs : o.containers.map Container.settle = cs.map Container.settle)
    (hsolid : ∀ place column, Solid (glyphsAt place column run))
    (hcloses : op.length ≤ leadingRun op.marker run)
    (hbehind : (run.dropWhile (· = op.marker)).all Layout.isGap = true)
    (hmarker : op.marker = '`' ∨ op.marker = '~') :
    o.step (RawLine.lineAt p ⟨margin ++ run, last⟩) =
      ([op.code (p + byteLength (margin ++ run)) (ending :: value)],
        behindFence cs (p + byteLength (margin ++ run)) last) := by
  obtain ⟨W, column, hW, hkeeps, hleft, hkept⟩ :=
    exists_behind_margin (p := p) hmargin hcs last hsolid
  have hclosed : op.closedBy (o.behind (RawLine.lineAt p ⟨margin ++ run, last⟩)) = true := by
    rw [hleft, FenceOpening.closedBy_eq hW (hsolid _ _) (spelled_glyphsAt _ _ _) hmarker, hbehind,
      Bool.and_true, decide_eq_true hcloses]
  rw [step_closing hleaf hkeeps hclosed, hkept, stop_lineAt, next_lineAt_eq]
  rfl

/-- A line of words inside of a fence. -/
theorem exists_step_words {value : List (List Char)} {ending content : List Char}
    (ending' : List Char) (hleaf : o.leaf = .fence op value ending) (hmargin : IsMargin cs margin)
    (hcs : o.containers.map Container.settle = cs.map Container.settle) (hne : content ≠ [])
    (hcontent : ∀ c ∈ content, Inert c) (hmarker : op.marker = '`' ∨ op.marker = '~')
    (hlength : FenceOpening.lengthMin ≤ op.length) :
    ∃ value₁ ending₁ stop next, o.step (RawLine.lineAt p ⟨margin ++ content, ending'⟩) =
      ([], ⟨cs.map Container.settle, .fence op value₁ ending₁, false, stop, next⟩) := by
  obtain ⟨c, rest, hhead⟩ := List.exists_cons_of_ne_nil hne
  have hc : Inert c := hcontent c (by rw [hhead]; exact List.mem_cons_self)
  have hsolid : ∀ place column, Solid (glyphsAt place column content) := solid_glyphsAt (c := c)
    (by rw [hhead]; rfl) (by rintro rfl; exact hc (by decide)) (by rintro rfl; exact hc (by decide))
    (by rintro rfl; exact hc (by decide))
  obtain ⟨W, column, hW, hkeeps, hleft, hkept⟩ :=
    exists_behind_margin (p := p) hmargin hcs ending' hsolid
  have hrun : leadingRun op.marker content = 0 :=
    Layout.leadingRun_of_not_mem fun hmem => (hcontent _ hmem).ne_marker hmarker rfl
  have hclosed :
      op.closedBy (o.behind (RawLine.lineAt p ⟨margin ++ content, ending'⟩)) = false := by
    have hpos : ¬ op.length ≤ 0 := fun hle => absurd (Nat.le_trans hlength hle) (by decide)
    rw [hleft, FenceOpening.closedBy_eq hW (hsolid _ _) (spelled_glyphsAt _ _ _) hmarker, hrun,
      decide_eq_false hpos, Bool.false_and]
  exact ⟨_, _, _, _, by rw [step_inner hleaf hkeeps hclosed, hkept]⟩

/-- Words, or nothing, inside of a fence. -/
theorem exists_run_words {value : List (List Char)} {ending content : List Char}
    (ending' : List Char) (hleaf : o.leaf = .fence op value ending) (hmargin : IsMargin cs margin)
    (hcs : o.containers.map Container.settle = cs.map Container.settle)
    (hcontent : ∀ c ∈ content, Inert c) (hmarker : op.marker = '`' ∨ op.marker = '~')
    (hlength : FenceOpening.lengthMin ≤ op.length) :
    ∃ value₁ ending₁ after,
      o.run (linesAt p (if content.isEmpty then [] else [⟨margin ++ content, ending'⟩])) =
        ([], after) ∧
      after.leaf = .fence op value₁ ending₁ ∧
      after.containers.map Container.settle = cs.map Container.settle := by
  by_cases hempty : content = []
  · subst hempty
    exact ⟨value, ending, o, rfl, hleaf, hcs⟩
  · obtain ⟨value₁, ending₁, stop, next, hstep⟩ :=
      exists_step_words (p := p) ending' hleaf hmargin hcs hempty hcontent hmarker hlength
    have hsettle : (cs.map Container.settle).map Container.settle = cs.map Container.settle := by
      rw [List.map_map]
      exact List.map_congr_left fun c _ => by cases c <;> rfl
    refine ⟨value₁, ending₁, ⟨cs.map Container.settle, .fence op value₁ ending₁, false, stop, next⟩,
      ?_, rfl, hsettle⟩
    rw [if_neg (by simpa using hempty), linesAt, linesAt, run_cons, hstep]
    rfl

/-- The marker of a fence closes it behind the margin. -/
theorem step_marker {value : List (List Char)} {ending : List Char} (last : List Char)
    (hleaf : o.leaf = .fence op value ending) (hmargin : IsMargin cs margin)
    (hcs : o.containers.map Container.settle = cs.map Container.settle)
    (hmarker : op.marker = '`' ∨ op.marker = '~') (hlength : 1 ≤ op.length) :
    o.step (RawLine.lineAt p ⟨margin ++ List.replicate op.length op.marker, last⟩) =
      ([op.code (p + byteLength (margin ++ List.replicate op.length op.marker)) (ending :: value)],
        behindFence cs (p + byteLength (margin ++ List.replicate op.length op.marker)) last) := by
  have hhead : (List.replicate op.length op.marker).head? = some op.marker := by
    have happend := Layout.head?_replicate_append (m := op.marker) hlength []
    rwa [List.append_nil] at happend
  have hsolid :
      ∀ place column, Solid (glyphsAt place column (List.replicate op.length op.marker)) := by
    refine solid_glyphsAt hhead ?_ ?_ ?_ <;>
      rcases hmarker with hm | hm <;> rw [hm] <;> decide
  have hrun : leadingRun op.marker (List.replicate op.length op.marker) = op.length :=
    leadingRun_replicate op.marker op.length
  have hbehind : (List.replicate op.length op.marker).dropWhile (· = op.marker) = [] := by simp
  exact step_last last hleaf hmargin hcs hsolid (Nat.le_of_eq hrun.symm)
    (by rw [hbehind]; rfl) hmarker

/-- **A fence in place of another one.** The fence that is written around words is read as one
again, with the same containers around it, and says what its new opening does. -/
theorem Parts.exists_swap (h : Parts o p op first last front opening margin run)
    {info content : List Char} {op₀ : FenceOpening}
    (hread : FenceOpening.read? (glyphsAt 0 0 (List.replicate op.length op.marker ++ info)) =
    some op₀) (hlength : op₀.length = op.length) (hcontent : ∀ c ∈ content, Inert c)
      (ending : List Char) :
    ∃ (op' : FenceOpening) (stop : Nat) (text : List (List Char)), op'.tells = op₀.tells ∧
      op'.start = p + byteLength front ∧
      stop + byteLength last.ending = p + byteLength (flat (fenceLines front
        (List.replicate op.length op.marker) info margin content ending last.ending)) ∧
      o.run (linesAt p
        (fenceLines front (List.replicate op.length op.marker) info margin content ending
        last.ending)) = ((o.step (first.lineAt p)).1 ++ [op'.code stop text],
          behindFence (o.step (first.lineAt p)).2.containers stop last.ending) := by
  have hmin : 1 ≤ op.length := Nat.le_trans (by decide) h.lengthMin
  have hhead := Layout.head?_replicate_append (m := op.marker) hmin info
  obtain ⟨op', stop, next, halike, hstart, -, hfirst⟩ := h.opens _ ending op₀ hhead hread
  obtain ⟨hmarker₀, -, -⟩ :=
    FenceOpening.marker_of_read? (W := []) (spelled_glyphsAt 0 0 _) rfl hhead
    h.closed.marker hread
  have hmarker : op'.marker = op.marker := halike.marker.trans hmarker₀
  have hlength' : op'.length = op.length := halike.length.trans hlength
  have hmarker' : op'.marker = '`' ∨ op'.marker = '~' := by rw [hmarker]; exact h.closed.marker
  -- the words are read by the fence, and the last line closes it
  obtain ⟨value, ending₁, o₁, hrun, hleaf, hcs⟩ := exists_run_words
    (o := ⟨(o.step (first.lineAt p)).2.containers, .fence op' [] ending, false, stop, next⟩)
    (p := p + RawLine.size ⟨front ++ (List.replicate op.length op.marker ++ info), ending⟩)
    ending rfl h.isMargin rfl hcontent hmarker' (by rw [hlength']; exact h.lengthMin)
  generalize hinner :
    (if content.isEmpty then [] else [RawLine.mk (margin ++ content) ending]) = inner
    at hrun
  have hlast := step_marker
    (p := p + RawLine.size ⟨front ++ (List.replicate op.length op.marker ++ info), ending⟩ +
      byteLength (flat inner)) last.ending hleaf h.isMargin hcs hmarker'
        (by rw [hlength']; exact hmin)
  rw [hlength', hmarker] at hlast
  have hlines :
    fenceLines front (List.replicate op.length op.marker) info margin content ending last.ending =
      ⟨front ++ (List.replicate op.length op.marker ++ info), ending⟩ ::
        (inner ++ [⟨margin ++ List.replicate op.length op.marker, last.ending⟩]) := by
    rw [fenceLines, hinner]
  refine ⟨op', p + RawLine.size ⟨front ++ (List.replicate op.length op.marker ++ info), ending⟩ +
    byteLength (flat inner) + byteLength (margin ++ List.replicate op.length op.marker),
      ending₁ :: value,
    halike.tells, hstart, ?_, ?_⟩
  · rw [hlines, flat_cons, flat_append, flat_cons, flat_nil, RawLine.size, RawLine.all]
    simp only [Text.byteLength_append, Text.byteLength]
    omega
  · rw [hlines, linesAt, run_cons, hfirst, linesAt_append, run_append]
    dsimp only
    rw [hrun, linesAt, linesAt, run_cons]
    dsimp only
    rw [hlast]
    rfl

end Outline

end LiveDoc.Markdown
