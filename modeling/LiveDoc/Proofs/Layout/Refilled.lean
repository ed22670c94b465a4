import LiveDoc.Proofs.Layout.FenceSwap
import LiveDoc.Proofs.Layout.FilledLines
import LiveDoc.Proofs.Layout.Reparse
import LiveDoc.Proofs.Text.Trimming

/-!
# Fences that are filled behind an aligned margin

A fence is written with its margin in front of each piece of the new content, and of the marker that
closes it.

* **content** — the code of these pieces is the content, up to line ends (`sameBody_of_pieces`);
* **pieces** — behind a margin that is aligned with the fence, a piece is read as it was written,
  and does not close the fence (`Outline.step_piece`, `Outline.run_pieces`);
* **fences** — so the lines that are written are a fence again that holds the content
  (`Outline.OpensAt.exists_refilled`), whether the old fence was closed by a line or not.
-/

namespace LiveDoc.Layout

open Markdown (RawLine flat valueOf)
open Text (IsEnding dropFinal isBlank lines)

variable {text run ending : List Char} {pieces : List (List Char)} {m : Char}

/-! ## The shape of a fence that is open or closed -/

theorem isPrefix_dropFinal {c : Char} (h : run <+: text) (hc : c ∉ run) :
    run <+: dropFinal c text := by
  by_cases hlast : text.getLast? = some c
  · obtain ⟨front, rfl⟩ := List.getLast?_eq_some_iff.mp hlast
    rw [dropFinal_concat]
    rcases List.prefix_concat_iff.mp h with rfl | hfront
    · exact absurd List.mem_concat_self hc
    · exact hfront
  · rwa [dropFinal_of_getLast? hlast]

/-- What a text starts with stands on its first line, if it holds no line ends. -/
theorem exists_first_line (hne : run ≠ []) (hfeed : '\n' ∉ run) (hreturn : '\r' ∉ run)
    (rest : List Char) :
    ∃ first more, lines (run ++ rest) = first :: more ∧ run <+: first := by
  have hpiece : '\n' ∉ run ++ rest.takeWhile (· ≠ '\n') := by
    rw [List.mem_append, not_or]
    exact ⟨hfeed, fun hmem => by simpa using List.all_eq_true.mp List.all_takeWhile _ hmem⟩
  have hrest := List.takeWhile_append_dropWhile (p := (· ≠ '\n')) (l := rest)
  cases hdrop : rest.dropWhile (· ≠ '\n') with
  | nil =>
    rw [hdrop, List.append_nil] at hrest
    rw [hrest] at hpiece
    exact ⟨_, _, lines_of_not_mem hpiece (by simp [hne]), List.prefix_append run rest⟩
  | cons c more =>
    have hc : (decide (c ≠ '\n')) = false := head?_dropWhile_neg (s := rest) (by rw [hdrop]; rfl)
    obtain rfl : c = '\n' := by simpa using hc
    rw [← hrest, hdrop, ← List.append_assoc, lines, Text.split_piece hpiece,
      endedLines_cons _ (Text.split_ne_nil '\n' more)]
    exact ⟨_, _, rfl, isPrefix_dropFinal (List.prefix_append ..) hreturn⟩

/-- The shape of a fence that starts with a marker. -/
theorem FenceShape.ofText_starts {old : List Char} (hm : m = '`' ∨ m = '~')
    (hrun : 3 ≤ leadingRun m old) (body : List Char) :
    (ofText old body).indent = [] ∧ (ofText old body).marker = m ∧
      3 ≤ (ofText old body).length ∧ (ofText old body).isOpen = Text.endsWith '\n' old := by
  have hblank : ¬ isBlank m = true := by rcases hm with rfl | rfl <;> decide
  have hunbroken : Text.isUnbroken m := by rcases hm with rfl | rfl <;> exact ⟨by decide, by decide⟩
  have hall : ∀ c ∈ old.takeWhile (· = m), c = m := fun c hc => by
    simpa using List.all_eq_true.mp List.all_takeWhile c hc
  have hne : old.takeWhile (· = m) ≠ [] := by
    intro hnil
    rw [leadingRun, hnil] at hrun
    exact absurd hrun (by decide)
  obtain ⟨first, more, hlines, tail, htail⟩ := exists_first_line hne
    (fun hmem => hunbroken.1 (hall _ hmem).symm) (fun hmem => hunbroken.2 (hall _ hmem).symm)
    (old.dropWhile (· = m))
  rw [List.takeWhile_append_dropWhile] at hlines
  obtain ⟨c, others, hcons⟩ := List.exists_cons_of_ne_nil hne
  obtain rfl : c = m := hall c (by rw [hcons]; exact List.mem_cons_self)
  have hlength : 3 ≤ leadingRun c first := by
    rw [← htail]
    refine Nat.le_trans ?_ (leadingRun_le_append ..)
    rw [leadingRun, List.takeWhile_takeWhile]
    simpa [leadingRun] using hrun
  obtain ⟨rest, hfirst⟩ : ∃ rest, first = c :: rest := ⟨others ++ tail, by rw [← htail, hcons]; rfl⟩
  have hindent : first.takeWhile isBlank = [] := by
    rw [hfirst]; exact List.takeWhile_cons_of_neg hblank
  have htrim : Text.trimStart first = first := by
    rw [hfirst]; exact List.dropWhile_cons_of_neg hblank
  have hmarker : first.head?.getD '`' = c := by rw [hfirst]; rfl
  unfold ofText
  dsimp only
  rw [hlines, List.head?_cons, Option.getD_some, hindent, htrim, hmarker]
  exact ⟨rfl, rfl, hlength, rfl⟩

/-! ## What pieces hold -/

theorem plainEnds_append (h : '\r' ∉ text) (rest : List Char) :
    plainEnds (text ++ rest) = text ++ plainEnds rest := by
  induction text with
  | nil => rfl
  | cons c more ih =>
    rw [List.mem_cons, not_or] at h
    rw [List.cons_append, plainEnds, ih h.2, List.cons_append]
    exact fun _ hc => absurd hc.symm h.1

theorem plainEnds_of_not_mem (h : '\r' ∉ text) : plainEnds text = text := by
  have happend := plainEnds_append h []
  rwa [List.append_nil, plainEnds, List.append_nil] at happend

/-- Pieces without carriage returns are the same between line ends of any style. -/
theorem plainEnds_join (he : IsEnding ending) (h : ∀ piece ∈ pieces, '\r' ∉ piece) :
    plainEnds (Text.join ending pieces) = Text.join ['\n'] pieces := by
  induction pieces with
  | nil => rfl
  | cons piece rest ih =>
    obtain ⟨hpiece, hrest⟩ := List.forall_mem_cons.mp h
    cases rest with
    | nil => exact plainEnds_of_not_mem hpiece
    | cons next rest =>
      rw [Text.join, Text.join, List.append_assoc, plainEnds_append hpiece, ← ih hrest,
        List.append_assoc]
      rcases he with rfl | rfl <;> simp [plainEnds]

theorem flatMap_ended (hne : pieces ≠ []) (ending : List Char) :
    pieces.flatMap (· ++ ending) = Text.join ending pieces ++ ending := by
  induction pieces with
  | nil => exact absurd rfl hne
  | cons piece rest ih =>
    cases rest with
    | nil => simp [Text.join]
    | cons next rest => rw [List.flatMap_cons, ih (by simp), Text.join, ← List.append_assoc]

/-- The code of pieces with line ends holds the pieces. -/
theorem valueOf_pieces {value : List (List Char)} (he : IsEnding ending)
    (h : ∀ piece ∈ pieces, '\r' ∉ piece)
    (hvalue : value.reverse.flatten = ending ++ pieces.flatMap (· ++ ending)) :
    valueOf value true = Text.join ending pieces := by
  have hdrop : Markdown.dropFirstLineEnd (ending ++ pieces.flatMap (· ++ ending)) =
      pieces.flatMap (· ++ ending) := by
    rcases he with rfl | rfl <;> simp [Markdown.dropFirstLineEnd]
  rw [valueOf, hvalue]
  simp only [if_true, hdrop]
  by_cases hne : pieces = []
  · subst hne
    rfl
  · rw [flatMap_ended hne, List.reverse_append]
    rcases he with rfl | rfl
    · -- there is no carriage return in front of the last line feed
      have hreturn : '\r' ∉ (Text.join ['\n'] pieces).reverse := by
        intro hmem
        have hflat : '\r' ∈ pieces.flatMap (· ++ ['\n']) := by
          rw [flatMap_ended hne]
          exact List.mem_append_left _ (List.mem_reverse.mp hmem)
        obtain ⟨piece, hpiece, hmem⟩ := List.mem_flatMap.mp hflat
        exact h piece hpiece (by simpa using hmem)
      rw [List.reverse_singleton, List.singleton_append]
      split
      · next heq =>
        obtain ⟨-, heq⟩ := List.cons.inj heq
        exact absurd (heq ▸ List.mem_cons_self) hreturn
      · next heq =>
        obtain ⟨rfl, rfl⟩ := List.cons.inj heq
        simp
      · next heq => cases heq
    · simp

/-- A content is what its written pieces hold, up to line ends. -/
theorem sameBody_of_pieces {content : List Char} {value : List (List Char)} (he : IsEnding ending)
    (hcontent : '\r' ∉ content)
    (hvalue : value.reverse.flatten = ending ++ (writtenPieces content).flatMap (· ++ ending)) :
    SameBody (String.ofList content) (String.ofList (valueOf value true)) := by
  have hpieces : ∀ piece ∈ writtenPieces content, '\r' ∉ piece := fun piece hpiece =>
    (mem_writtenPieces hcontent hpiece).2.2
  rw [SameBody, valueOf_pieces he hpieces hvalue, String.toList_ofList, String.toList_ofList,
    plainEnds_join he hpieces, join_writtenPieces, plainEnds_of_not_mem hcontent]
  by_cases hlast : content.getLast? = some '\n'
  · obtain ⟨front, rfl⟩ := List.getLast?_eq_some_iff.mp hlast
    exact Or.inr (Or.inr (by rw [dropFinal_concat]))
  · exact Or.inl (dropFinal_of_getLast? hlast).symm

end LiveDoc.Layout

namespace LiveDoc.Markdown

open Text (byteLength byteLength_append isBlank isUnbroken IsEnding trimEnd)
open Layout (FenceShape closesFence isGap leadingRun writeLine writtenMarker writtenPieces)

variable {W gs : List Glyph} {t margin piece : List Char} {op : FenceOpening}

/-! ## Pieces of a content -/

/-- A line that closes a fence closes it by its text. -/
theorem FenceOpening.closesFence_of_closedBy (hW : W.all Glyph.isSpace = true) (h : Spelled t gs)
    (hmarker : op.marker = '`' ∨ op.marker = '~') (hlength : lengthMin ≤ op.length)
    (hclosed : op.closedBy (W ++ gs) = true) : closesFence op.marker op.length t = true := by
  obtain ⟨W', g, ms, hparts, hW', hg, -⟩ := exists_of_closedBy hclosed hmarker hlength
  -- the marker is what stands behind all spaces
  have hdrop : gs.dropWhile Glyph.isSpace = g :: ms := by
    have hsame := congrArg (List.dropWhile Glyph.isSpace) hparts
    rwa [List.dropWhile_append_of_pos (List.all_eq_true.mp hW),
      List.dropWhile_append_of_pos (List.all_eq_true.mp hW'.isSpace),
      List.dropWhile_cons_of_neg (by simp [Glyph.isSpace_of_isTick hg])] at hsame
  have hrun : Spelled (t.dropWhile isGap) (gs.dropWhile Glyph.isSpace) :=
    (h.span (p := isGap) rfl).2
  rw [hdrop] at hrun
  rw [hparts, closedBy_eq hW' (solid_of_isTick hg ms) hrun hmarker] at hclosed
  exact hclosed

/-! ## Openings with letters -/

/-- A marker with letters behind it opens a fence. -/
theorem FenceOpening.exists_read?_letters {m : Char} {n : Nat} {info : List Char}
    (hm : m = '`' ∨ m = '~') (hn : lengthMin ≤ n) (hinfo : ∀ c ∈ info, c.isAlpha = true) :
    ∃ op, read? (glyphsAt 0 0 (List.replicate n m ++ info)) = some op ∧ op.marker = m ∧
      op.length = n := by
  have hhead := Layout.head?_replicate_append (m := m) (Nat.le_trans (by decide) hn) info
  have hne : ∀ c ∈ info, c ≠ m ∧ c ≠ '`' := by
    intro c hc
    have halpha := hinfo c hc
    constructor
    · rintro rfl
      rcases hm with rfl | rfl <;> exact absurd halpha (by decide)
    · rintro rfl
      exact absurd halpha (by decide)
  have hrun : leadingRun m (List.replicate n m ++ info) = n :=
    Layout.leadingRun_append n fun hstart => (hne m (List.mem_of_head? hstart)).1 rfl
  have hdrop : (List.replicate n m ++ info).dropWhile (· = m) = info.dropWhile (· = m) :=
    List.dropWhile_append_of_pos (by simp)
  have hticks :
      (((List.replicate n m ++ info).dropWhile (· = m)).dropWhile isGap).all (· ≠ '`') = true := by
    rw [hdrop, List.all_eq_true]
    intro c hc
    have hmem := (List.dropWhile_suffix _).subset ((List.dropWhile_suffix _).subset hc)
    exact decide_eq_true (hne c hmem).2
  obtain ⟨indent, info', details, -, -, hread⟩ :=
    exists_read?_eq (W := []) (spelled_glyphsAt 0 0 (List.replicate n m ++ info)) rfl hhead hm
  have hlength : ((List.replicate n m ++ info).takeWhile (· = m)).length = n := hrun
  rw [hlength, hticks, if_pos (by simp [hn])] at hread
  exact ⟨_, hread, rfl, rfl⟩

namespace Outline

variable {o : Outline} {p : Nat} {cs : List Container} {value : List (List Char)}
  {ending ending' : List Char}

/-- A written piece behind an aligned margin: spaces that the fence takes off, and the piece. -/
theorem Aligned.exists_behind_writeLine (h : Aligned cs op.indent margin)
    (hcs : ∀ c ∈ cs, c.settle = c) (hreturn : '\r' ∉ piece) (place : Nat) :
    ∃ W gs, W.all Glyph.isSpace = true ∧ Spelled piece gs ∧
      continued cs.reverse (glyphsAt place 0 (writeLine margin piece)) = (cs.reverse, W ++ gs) ∧
      Glyph.text (Glyph.cutSpaces op.indent (W ++ gs)).2 = piece := by
  rw [writeLine, Layout.dropFinal_of_not_mem hreturn]
  split
  · next hempty =>
    obtain rfl := List.isEmpty_iff.mp hempty
    -- an empty piece has lost the blanks at the end of its margin
    obtain ⟨blanks, hmargin, hblanks⟩ := Text.exists_eq_trimEnd_append margin
    have hall : ∀ c ∈ blanks, c = ' ' ∨ c = '\t' := by
      intro c hc
      have hmem : c ∈ margin := hmargin ▸ List.mem_append_right _ hc
      have hblank := hblanks c hc
      rcases h.blank_or_quote c hmem with rfl | rfl | rfl
      · exact Or.inl rfl
      · exact Or.inr rfl
      · cases hblank
    rw [hmargin] at h
    obtain ⟨W, hW, hle, hcontinued⟩ := h.exists_continued_trimmed hcs hall place
    refine ⟨W, [], hW, .nil, by rw [hcontinued, List.append_nil], ?_⟩
    rw [List.append_nil, Glyph.cutSpaces_of_all hW hle]
    rfl
  · obtain ⟨W, column, hW, hlength, hcontinued⟩ := h.exists_continued hcs place piece
    refine ⟨W, _, hW, spelled_glyphsAt _ _ _, hcontinued, ?_⟩
    rw [← hlength, Glyph.cutSpaces_append_of_length hW, Glyph.text_glyphsAt]

/-- **A written piece** is read as it was written. -/
theorem step_piece (hleaf : o.leaf = .fence op value ending)
    (hcs : ∀ c ∈ o.containers, c.settle = c) (h : Aligned o.containers op.indent margin)
    (hmarker : op.marker = '`' ∨ op.marker = '~') (hlength : FenceOpening.lengthMin ≤ op.length)
    (hreturn : '\r' ∉ piece) (hopen : closesFence op.marker op.length piece = false)
    (ending' : List Char) :
    ∃ stop next, o.step (RawLine.lineAt p ⟨writeLine margin piece, ending'⟩) =
      ([], ⟨o.containers, .fence op (piece :: ending :: value) ending', false, stop, next⟩) := by
  obtain ⟨W, gs, hW, hgs, hcontinued, htext⟩ := h.exists_behind_writeLine hcs hreturn p
  have hkeeps : o.Keeps (RawLine.lineAt p ⟨writeLine margin piece, ending'⟩) := by
    rw [Keeps, RawLine.lineAt, hcontinued, List.length_reverse]
  have hbehind : o.behind (RawLine.lineAt p ⟨writeLine margin piece, ending'⟩) = W ++ gs := by
    rw [behind, RawLine.lineAt, hcontinued]
  have hclosed : op.closedBy (W ++ gs) = false := by
    rw [Bool.eq_false_iff]
    intro hclosed
    rw [FenceOpening.closesFence_of_closedBy hW hgs hmarker hlength hclosed] at hopen
    cases hopen
  rw [← hbehind] at hclosed htext
  exact ⟨_, _,
    by rw [step_inner hleaf hkeeps hclosed, hkeeps.kept_eq hcs, htext, endingText_lineAt]⟩

/-- **Written pieces**, each with a line end, are read as they were written. -/
theorem run_pieces {pieces : List (List Char)} (hleaf : o.leaf = .fence op value ending)
    (hcs : ∀ c ∈ o.containers, c.settle = c) (h : Aligned o.containers op.indent margin)
    (hmarker : op.marker = '`' ∨ op.marker = '~') (hlength : FenceOpening.lengthMin ≤ op.length)
    (hpieces : ∀ piece ∈ pieces, '\r' ∉ piece ∧ closesFence op.marker op.length piece = false)
    (ending' : List Char) :
    ∃ value₁ ending₁ after,
      o.run (linesAt p (pieces.map fun piece => ⟨writeLine margin piece, ending'⟩)) =
        ([], after) ∧ after.leaf = .fence op value₁ ending₁ ∧ after.containers = o.containers ∧
      (ending₁ :: value₁).reverse.flatten =
        (ending :: value).reverse.flatten ++ pieces.flatMap (· ++ ending') := by
  induction pieces generalizing o p value ending with
  | nil => exact ⟨value, ending, o, rfl, hleaf, rfl, by simp⟩
  | cons piece rest ih =>
    obtain ⟨⟨hreturn, hopen⟩, hrest⟩ := List.forall_mem_cons.mp hpieces
    obtain ⟨stop, next, hstep⟩ :=
      step_piece (p := p) hleaf hcs h hmarker hlength hreturn hopen ending'
    obtain ⟨value₁, ending₁, after, hrun, hafter, hcontainers, hvalue⟩ := ih
      (o := ⟨o.containers, .fence op (piece :: ending :: value) ending', false, stop, next⟩)
      (p := p + RawLine.size ⟨writeLine margin piece, ending'⟩) rfl hcs h hrest
    refine ⟨value₁, ending₁, after, ?_, hafter, hcontainers, ?_⟩
    · rw [List.map_cons, linesAt, run_cons, hstep]
      dsimp only
      rw [hrun]
      rfl
    · rw [hvalue]
      simp

/-- Behind a fence, an empty line that is left changes nothing. -/
theorem codes_left {left : List Char} (hcs : ∀ c ∈ cs, c.settle = c)
    (hempty : left ≠ [] → (continued cs.reverse []).1.length = cs.length) (stop place : Nat)
    (ending : List Char) (ys : List RawLine) :
    (behindFence cs stop ending).codes
        (linesAt place ((if left.isEmpty then [] else [⟨[], left⟩]) ++ ys)) =
      (behindFence cs place left).codes (linesAt (place + byteLength left) ys) := by
  by_cases hleft : left = []
  · rw [hleft, List.isEmpty_nil, if_pos rfl]
    exact codes_behindFence rfl rfl rfl _ _ _
  · have hcontainers : (behindFence cs stop ending).containers = cs := map_settle hcs
    obtain ⟨next, next', hstep⟩ := step_empty (p := place) (o := behindFence cs stop ending) rfl
      (by rwa [hcontainers]) (by rw [hcontainers]; exact hempty hleft) left
    have hcodes : (behindFence cs stop ending).codes (linesAt place (⟨[], left⟩ :: ys)) =
        codes ⟨cs, .none, false, next, next'⟩ (linesAt (place + byteLength left) ys) := by
      rw [linesAt, codes_cons, hstep, hcontainers]
      rfl
    rw [if_neg (by simpa using hleft), List.singleton_append, hcodes]
    exact codes_behindFence rfl rfl (map_settle hcs).symm _ _ _

/-- The lines that close a fence end its code, and leave what was left behind the old one. -/
theorem codes_closingLines {isOpen : Bool} {left : List Char}
    (hleaf : o.leaf = .fence op value ending) (hcs : ∀ c ∈ o.containers, c.settle = c)
    (h : Aligned o.containers op.indent margin) (hmarker : op.marker = '`' ∨ op.marker = '~')
    (hlength : 1 ≤ op.length) (hempty : isOpen = true → left ≠ [] →
      (continued o.containers.reverse []).1.length = o.containers.length) {place : Nat}
    (hplace : place = p + byteLength (margin ++ List.replicate op.length op.marker) +
      byteLength (if isOpen then ending' else [])) (ys : List RawLine) :
    o.codes (linesAt p
      (Layout.closingLines (margin ++ List.replicate op.length op.marker) ending' left isOpen ++
      ys)) = op.code (p + byteLength (margin ++ List.replicate op.length op.marker))
        (ending :: value) ::
        (behindFence o.containers place left).codes (linesAt (place + byteLength left) ys) := by
  have hstep := fun last => step_marker (p := p) last hleaf h.isMargin rfl hmarker hlength
  generalize margin ++ List.replicate op.length op.marker = text at hstep hplace ⊢
  have hsize : ∀ last : List Char, RawLine.size ⟨text, last⟩ = byteLength text + byteLength last :=
    fun last => byteLength_append text last
  cases isOpen with
  | false =>
    obtain rfl : place = p + byteLength text := hplace
    rw [Layout.closingLines, List.singleton_append, linesAt, codes_cons, hstep, hsize,
      Nat.add_assoc]
    rfl
  | true =>
    obtain rfl : place = p + byteLength text + byteLength ending' := hplace
    rw [Layout.closingLines, List.cons_append, linesAt, codes_cons, hstep, hsize, ← Nat.add_assoc]
    exact congrArg (List.cons _) (codes_left hcs (hempty rfl) _ _ _ ys)

/-- The lines of a fence that is filled, up to the one that closes it, are read as an opening and
the pieces of the content. -/
theorem OpensAt.run_pieces {first : RawLine} {front opening info content : List Char}
    {shape : FenceShape} (h : o.OpensAt p op first front opening)
    (hcs : ∀ c ∈ (o.step (first.lineAt p)).2.containers, c.settle = c)
    (haligned : Aligned (o.step (first.lineAt p)).2.containers op.indent shape.margin)
    (hmarker : shape.marker = op.marker) (hlength : FenceOpening.lengthMin ≤ shape.length)
    (hinfo : ∀ c ∈ info, c.isAlpha = true) (hcontent : '\r' ∉ content) (ending : List Char) :
    ∃ (op' : FenceOpening) (value : List (List Char)) (ending₁ : List Char) (after : Outline),
      op'.marker = op.marker ∧ List.replicate op'.length op'.marker = writtenMarker shape content ∧
      FenceOpening.lengthMin ≤ op'.length ∧ op'.start = p + byteLength front ∧
        op'.indent = op.indent ∧
      o.run (linesAt p (⟨front ++ (writtenMarker shape content ++ info), ending⟩ ::
        (writtenPieces content).map fun piece => ⟨writeLine shape.margin piece, ending⟩)) =
          ((o.step (first.lineAt p)).1, after) ∧
      after.leaf = .fence op' value ending₁ ∧
        after.containers = (o.step (first.lineAt p)).2.containers ∧
      (ending₁ :: value).reverse.flatten = ending ++ (writtenPieces content).flatMap
      (· ++ ending) := by
  generalize hn :
    max shape.length (Layout.longestRun shape.marker (Text.dropFinal '\n' content) + 1) = n
  have hrun : writtenMarker shape content = List.replicate n op.marker := by
    rw [writtenMarker, hn, hmarker]
  have hmin : FenceOpening.lengthMin ≤ n := by omega
  have hblank : isBlank op.marker = false := by rcases h.marker with hm | hm <;> rw [hm] <;> decide
  obtain ⟨op₀, hread, hmarker₀, hlength₀⟩ := FenceOpening.exists_read?_letters h.marker hmin hinfo
  have hhead := Layout.head?_replicate_append (m := op.marker) (Nat.le_trans (by decide) hmin) info
  obtain ⟨op', stop, next, halike, hstart, hindent, hfirst⟩ := h.opens _ ending op₀ hhead hread
  have hmarker' : op'.marker = op.marker := halike.marker.trans hmarker₀
  have hlength' : op'.length = n := halike.length.trans hlength₀
  -- the marker that is written is longer than any run of it in the content
  have hpieces : ∀ piece ∈ writtenPieces content,
      '\r' ∉ piece ∧ closesFence op'.marker op'.length piece = false := by
    intro piece hpiece
    obtain ⟨hsplit, -, hreturn⟩ := Layout.mem_writtenPieces hcontent hpiece
    refine ⟨hreturn, Layout.not_closes_first (hmarker' ▸ hblank) ?_ hsplit ?_⟩
    · rw [hmarker', hlength', ← hmarker]
      omega
    · exact (Layout.dropFinal_of_not_mem hreturn).symm ▸ List.prefix_rfl
  obtain ⟨value, ending₁, after, hpiecesRun, hleaf, hcontainers, hvalue⟩ := Outline.run_pieces
    (o := ⟨(o.step (first.lineAt p)).2.containers, .fence op' [] ending, false, stop, next⟩)
    (p := p + RawLine.size ⟨front ++ (writtenMarker shape content ++ info), ending⟩) rfl hcs
    (hindent ▸ haligned) (hmarker' ▸ h.marker) (hlength' ▸ hmin) hpieces ending
  refine ⟨op', value, ending₁, after, hmarker', by rw [hlength', hmarker', hrun], hlength' ▸ hmin,
    hstart, hindent, ?_, hleaf, hcontainers, by simpa using hvalue⟩
  rw [← hrun] at hfirst
  rw [linesAt, run_cons, hfirst]
  dsimp only
  rw [hpiecesRun, List.append_nil]

/-- The line of an opening is not empty. -/
theorem OpensAt.mem_inner {first : RawLine} {inner : List RawLine} {front opening left : List Char}
    (h : o.OpensAt p op first front opening)
    (hlines : ∃ init, first :: inner = init ++ [⟨[], left⟩]) :
    RawLine.mk [] left ∈ inner := by
  obtain ⟨init, hinit⟩ := hlines
  cases init with
  | nil =>
    have hnil : front ++ opening = [] := by
      rw [← h.firstText, (List.cons.inj hinit).1]
    exact absurd (List.append_eq_nil_iff.mp hnil).2 h.opening_ne_nil
  | cons r init =>
    rw [(List.cons.inj hinit).2]
    exact List.mem_concat_self

/-- **A fence that is filled** behind a margin that is aligned with it is a fence again, and holds
the content. -/
theorem OpensAt.exists_refilled {first : RawLine} {inner more : List RawLine}
    {front opening tail left : List Char} {info content body : List Char} {shape : FenceShape}
    (h : o.OpensAt p op first front opening)
    (hencloses : Encloses (first :: inner) more front (opening ++ tail) left)
    (hcs : ∀ c ∈ (o.step (first.lineAt p)).2.containers, c.settle = c)
    (hempty : ∀ r ∈ inner, r.text = [] →
    (continued (o.step (first.lineAt p)).2.containers.reverse []).1.length =
      (o.step (first.lineAt p)).2.containers.length)
    (hshape : FenceShape.ofText (opening ++ tail) body = shape)
    (haligned : Aligned (o.step (first.lineAt p)).2.containers op.indent shape.margin)
    (hreturn : (opening ++ tail).getLast? ≠ some '\r' ∨ more = [])
    (hinfo : ∀ c ∈ info, c.isAlpha = true) (hcontent : '\r' ∉ content) (he : IsEnding ending) :
    ∃ new op' fence text,
      Replaces o p op first inner more left front
        (Layout.writeFence shape info content ending) new op' fence text ∧
      Layout.SameBody (String.ofList content) (String.ofList (valueOf text true)) := by
  have hold : 3 ≤ leadingRun op.marker (opening ++ tail) :=
    Nat.le_trans (h.length ▸ h.lengthMin) (Layout.leadingRun_le_append _ _ _)
  obtain ⟨hindent, hmarker, hlength, hisOpen⟩ :=
    hshape ▸ FenceShape.ofText_starts h.marker hold body
  obtain ⟨op', value, ending₁, after, hmarker', hrun, hmin, hstart, hindent', hopened, hleaf,
    hcontainers, hvalue⟩ :=
    h.run_pieces hcs haligned hmarker hlength hinfo hcontent ending
  have hwrites : Layout.writeFence { shape with isOpen := false } info content ending ++
      (if shape.isOpen then ending else []) = Layout.writeFence shape info content ending := by
    rw [Layout.writeFence_eq, Layout.writeFence_eq shape]
    simp [writtenMarker]
  refine ⟨Layout.filledLines shape front info content ending left, op',
    Layout.writeFence { shape with isOpen := false } info content ending, ending₁ :: value,
    ⟨Layout.flat_filledLines shape hindent .., ?_, hstart, ?_, ?_, ?_⟩,
    Layout.sameBody_of_pieces he hcontent hvalue⟩
  · intro ys hys hhead
    refine h.wellFormed_filledLines hencloses hmarker hisOpen (fun c hc => ?_) hreturn
      (fun c hc => ?_) hcontent he
      hys hhead
    · rcases haligned.blank_or_quote c hc with rfl | rfl | rfl <;> exact ⟨by decide, by decide⟩
    · have halpha := hinfo c hc
      constructor <;>
      · rintro rfl
        cases halpha
  · exact ⟨_, hwrites⟩
  · rw [← hmarker]
    exact Nat.le_trans hlength
      (Layout.le_leadingRun_writeFence { shape with isOpen := false } hindent ..)
  · intro ys
    generalize hlines : (RawLine.mk (front ++ (writtenMarker shape content ++ info)) ending ::
      (writtenPieces content).map fun piece => RawLine.mk (writeLine shape.margin piece) ending) =
        lines at hopened
    generalize hfence :
      Layout.writeFence { shape with isOpen := false } info content ending = fence at hwrites ⊢
    -- the code ends behind the marker of the line that closes it
    have hflat : front ++ fence = flat lines ++ (shape.margin ++ writtenMarker shape content) := by
      have hall :=
        Layout.flat_filledLines { shape with isOpen := false } hindent front info content ending []
      rw [hfence, List.append_nil] at hall
      rw [← hall, ← hlines]
      simp [Layout.filledLines, Layout.closingLines, writtenMarker]
    have hplace : p + byteLength (front ++ Layout.writeFence shape info content ending) =
        p + byteLength (flat lines) +
          byteLength (shape.margin ++ List.replicate op'.length op'.marker) +
          byteLength (if shape.isOpen then ending else []) := by
      rw [hrun, ← hwrites, ← List.append_assoc, hflat, byteLength_append,
        byteLength_append (flat lines)]
      simp only [Nat.add_assoc]
    have hleft : shape.isOpen = true → left ≠ [] →
        (continued after.containers.reverse []).1.length = after.containers.length := by
      intro hopen hne
      rw [hisOpen, Text.endsWith_eq, decide_eq_true_eq] at hopen
      rw [hcontainers]
      exact hempty _ (h.mem_inner (hencloses.exists_empty hne hopen)) rfl
    have hclosing :=
      codes_closingLines hleaf (by rwa [hcontainers]) (by rwa [hcontainers, hindent'])
      (hmarker' ▸ h.marker) (Nat.le_trans (by decide) hmin) hleft hplace ys
    have hstop :
      p + byteLength (flat lines) + byteLength (shape.margin ++ writtenMarker shape content) =
        p + byteLength (front ++ fence) := by
      rw [hflat, byteLength_append (flat lines), Nat.add_assoc]
    rw [hrun, hcontainers, hstop] at hclosing
    rw [Layout.filledLines, ← List.cons_append, hlines, List.append_assoc, linesAt_append,
      codes_append, hopened]
    exact congrArg ((o.step (first.lineAt p)).1 ++ ·) hclosing

end Outline

end LiveDoc.Markdown
