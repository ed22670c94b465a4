import LiveDoc.Proofs.Layout.Breakout
import LiveDoc.Proofs.Markdown.FenceSpan

/-!
# The text of a fence's lines

Where the glyphs of a line stand in its text, and what the line that opens a fence says.

* What a line says behind its marker depends on its text from there on alone
  (`FenceOpening.exists_read?`).
* In front of the marker stands the same text, whatever the line says (`Outline.exists_opensAt`).
* What stands in front of the marker that closes a fence may stand in front of any line of it
  (`Outline.exists_closing`).
-/

namespace LiveDoc.Markdown

open Text (byteLength)
open Layout (isGap leadingRun)

variable {t : List Char} {gs gs' W : List Glyph} {op : FenceOpening}

/-- The language that the opening of a fence names, and all that it says behind its marker. -/
def FenceOpening.tells (o : FenceOpening) : Option String × String := (o.code 0 []).tells

@[simp] theorem FenceOpening.tells_code (o : FenceOpening) (stop : Nat) (text : List (List Char)) :
    (o.code stop text).tells = o.tells := rfl

namespace FenceOpening

/-- Openings that say the same behind the same marker. -/
structure Alike (o o' : FenceOpening) : Prop where
  marker : o'.marker = o.marker
  length : o'.length = o.length
  tells : o'.tells = o.tells

theorem tells_eq {o o' : FenceOpening} {info details : List Char} (hinfo : Spelled info o.info)
    (hinfo' : Spelled info o'.info) (hdetails : Spelled details o.details)
    (hdetails' : Spelled details o'.details) : o'.tells = o.tells := by
  have hnamed : ∀ {t : List Char} {gs gs' : List Glyph}, Spelled t gs → Spelled t gs' →
      (if gs'.isEmpty then none else some gs').map decodedText =
        (if gs.isEmpty then none else some gs).map decodedText := by
    intro t gs gs' h h'
    rw [h.isEmpty, h'.isEmpty]
    split
    · rfl
    · rw [Option.map_some, Option.map_some, h.decodedText_eq h']
  simp only [tells, Code.tells, code, hnamed hinfo hinfo', hnamed hdetails hdetails']

/-- The opening that is read of glyphs with a text: its length is that of the run at the start of
the text, and what it says has a text as well. -/
theorem exists_read?_eq (h : Spelled t gs) (hW : Indents W) {c : Char} (hhead : t.head? = some c)
    (hc : c = '`' ∨ c = '~') :
    ∃ indent info details,
      Spelled (((t.dropWhile (· = c)).dropWhile isGap).takeWhile (!isGap ·)) info ∧
      Spelled ((((t.dropWhile (· = c)).dropWhile isGap).dropWhile (!isGap ·)).dropWhile isGap)
        details ∧
      read? (W ++ gs) =
        if lengthMin ≤ (t.takeWhile (· = c)).length &&
            (c ≠ '`' || ((t.dropWhile (· = c)).dropWhile isGap).all (· ≠ '`')) then
          some ⟨indent, Glyph.startOf 0 gs, c, (t.takeWhile (· = c)).length, info, details⟩
        else none := by
  have hspace : (decide (' ' = c)) = false := by rcases hc with rfl | rfl <;> rfl
  have htab : (decide ('\t' = c)) = false := by rcases hc with rfl | rfl <;> rfl
  obtain ⟨-, hrun⟩ := h.span (p := fun d => d = c) (htab.trans hspace.symm)
  have hlength := congrArg List.length (h.map_takeWhile (p := fun d => d = c) hspace htab)
  rw [List.length_map] at hlength
  obtain ⟨-, hrest⟩ := hrun.span (p := isGap) rfl
  obtain ⟨hinfo, hbehind⟩ := hrest.span (p := fun d => !isGap d) rfl
  obtain ⟨-, hdetails⟩ := hbehind.span (p := isGap) rfl
  have hticks := hrest.all_eq (p := fun d => d ≠ '`') rfl
  obtain ⟨g, ms, rfl⟩ : ∃ g ms, gs = g :: ms := by
    cases gs with
    | nil =>
      rw [← h.head?_char] at hhead
      cases hhead
    | cons g ms => exact ⟨g, ms, rfl⟩
  have hg : g.char = c := Option.some.inj (h.head?_char.trans hhead)
  have htick : g.isTick = true := Glyph.isTick_iff.mpr (by rw [hg]; exact hc)
  refine ⟨Glyph.size W (some g), _, _, hinfo, hdetails, ?_⟩
  unfold read?
  rw [hW.cutSpaces (solid_of_isTick htick ms)]
  dsimp only
  rw [hg]
  have hc' : (c = '`' || c = '~') = true := by simpa using hc
  have hdrop : ∀ gs, Glyph.dropSpaces gs = gs.dropWhile (fun g => isGap g.char) := fun _ => rfl
  rw [hc', Bool.true_and, hlength, hdrop, hticks]
  rfl

/-- What the opening of a fence says does not depend on where it stands. -/
theorem exists_read? (h : Spelled t gs) (h' : Spelled t gs') (hW : Indents W) {c : Char}
    (hhead : t.head? = some c) (hc : c = '`' ∨ c = '~') (hread : read? gs = some op) :
    ∃ op', read? (W ++ gs') = some op' ∧ op'.start = Glyph.startOf 0 gs' ∧ op.Alike op' := by
  obtain ⟨_, _, _, hinfo, hdetails, heq⟩ := exists_read?_eq (W := []) h rfl hhead hc
  obtain ⟨_, _, _, hinfo', hdetails', heq'⟩ := exists_read?_eq h' hW hhead hc
  rw [List.nil_append, hread] at heq
  split at heq
  · next hif =>
    rw [if_pos hif] at heq'
    cases heq
    exact ⟨_, heq', rfl, rfl, rfl, tells_eq hinfo hinfo' hdetails hdetails'⟩
  · cases heq

/-- The indentation of an opening is that of its first glyph. -/
theorem indent_of_read? {g : Glyph} {ms : List Glyph} (hW : Indents W) (hg : g.isTick = true)
    (h : read? (W ++ g :: ms) = some op) : op.indent = Glyph.size W (some g) := by
  unfold read? at h
  rw [hW.cutSpaces (solid_of_isTick hg ms)] at h
  dsimp only at h
  split at h
  · rw [← Option.some.inj h]
    rfl
  · cases h

/-- The marker of an opening stands at the start of its text. -/
theorem marker_of_read? (h : Spelled t gs) (hW : Indents W) {c : Char} (hhead : t.head? = some c)
    (hc : c = '`' ∨ c = '~') (hread : read? (W ++ gs) = some op) :
    op.marker = c ∧ op.length = leadingRun c t ∧ lengthMin ≤ op.length := by
  obtain ⟨_, _, _, -, -, heq⟩ := exists_read?_eq h hW hhead hc
  rw [hread] at heq
  split at heq
  · next hif =>
    cases heq
    simp only [Bool.and_eq_true, decide_eq_true_eq] at hif
    exact ⟨rfl, rfl, hif.1⟩
  · cases heq

end FenceOpening

/-! ## Lines that are cut at a glyph -/

/-- A line that is cut in front of a glyph that is no space is cut in its text. -/
theorem exists_cut {place column : Nat} {text : List Char} {H ms : List Glyph} {g : Glyph}
    (hg : g.isSpace = false) (h : glyphsAt place column text = H ++ g :: ms) :
    ∃ front back column', text = front ++ back ∧
      g :: ms = glyphsAt (place + byteLength front) column' back ∧
      ∀ t, glyphsAt place column (front ++ t) = H ++
        glyphsAt (place + byteLength front) column' t := by
  induction text generalizing place column H with
  | nil => cases H <;> cases h
  | cons c rest ih =>
    cases H with
    | nil => exact ⟨[], c :: rest, column, rfl, h.symm, fun t => rfl⟩
    | cons k H =>
      rw [glyphsAt] at h
      split at h
      · next hc =>
        -- the columns of a tab are spaces, so the glyph stands behind all of them
        obtain ⟨H', hH', hrest⟩ : ∃ H', k :: H = Line.tabColumns place column none none ++ H' ∧
            glyphsAt (place + 1) (column + (Line.tabColumns place column none none).length) rest =
              H' ++ g :: ms := by
          rcases List.append_eq_append_iff.mp h with ⟨H', hH', hrest⟩ | ⟨K, hK, hrest⟩
          · exact ⟨H', hH', hrest⟩
          · cases K with
            | nil => exact ⟨[], by rw [hK, List.append_nil, List.append_nil], hrest.symm⟩
            | cons f K =>
              obtain ⟨rfl, -⟩ := List.cons.inj hrest
              obtain ⟨t, columns, hcolumns, ht, -, hall⟩ := exists_tabColumns place column
              have hmem : g ∈ Line.tabColumns place column none none := by
                rw [hK]
                exact List.mem_append_right _ List.mem_cons_self
              rw [hcolumns] at hmem
              rcases List.mem_cons.mp hmem with rfl | hmem
              · simp [Glyph.isSpace, ht] at hg
              · simp [Glyph.isSpace, (hall g hmem).1] at hg
        obtain ⟨front, back, column', rfl, hback, hfront⟩ := ih hrest
        have hsize : place + byteLength (c :: front) = place + 1 + byteLength front := by
          rw [byteLength, hc, ← Nat.add_assoc]
          rfl
        refine ⟨c :: front, back, column', rfl, by rw [hsize]; exact hback, fun t => ?_⟩
        rw [List.cons_append, glyphsAt, if_pos hc, hfront, hH', hsize, List.append_assoc]
      · next hc =>
        obtain ⟨rfl, hrest⟩ := List.cons.inj h
        obtain ⟨front, back, column', rfl, hback, hfront⟩ := ih hrest
        have hsize : place + byteLength (c :: front) = place + c.utf8Size + byteLength front := by
          rw [byteLength, ← Nat.add_assoc]
        refine ⟨c :: front, back, column', rfl, by rw [hsize]; exact hback, fun t => ?_⟩
        rw [List.cons_append, glyphsAt, if_neg hc, hfront, hsize, List.cons_append]

namespace Outline

variable {o : Outline} {p : Nat} {r : RawLine} {ending : List Char}

theorem endingText_lineAt (p : Nat) (r : RawLine) : endingText (r.lineAt p) = r.ending := by
  unfold endingText RawLine.lineAt endGlyph?
  dsimp only
  split
  · next hnil => exact hnil.symm
  · rfl

/-- Behind the front of a line, any opening of a fence with the same marker opens one: what comes to
its end before, the indentation and the containers of the fence are the same. -/
def Opens (o : Outline) (p : Nat) (r : RawLine) (front : List Char) (op : FenceOpening) : Prop :=
  ∀ opening ending op₀, opening.head? = some op.marker →
    FenceOpening.read? (glyphsAt 0 0 opening) = some op₀ →
    ∃ op' stop next, op₀.Alike op' ∧ op'.start = p + byteLength front ∧ op'.indent = op.indent ∧
      o.step (RawLine.lineAt p ⟨front ++ opening, ending⟩) = ((o.step (r.lineAt p)).1,
        ⟨(o.step (r.lineAt p)).2.containers, .fence op' [] ending, false, stop, next⟩)

/-- A line that opens a fence in its parts: what stands in front of the marker, and the rest. -/
structure OpensAt (o : Outline) (p : Nat) (op : FenceOpening) (first : RawLine)
    (front opening : List Char) :
    Prop where
  firstText : first.text = front ++ opening
  starts : opening.head? = some op.marker
  marker : op.marker = '`' ∨ op.marker = '~'
  start : op.start = p + byteLength front
  length : op.length = leadingRun op.marker opening
  lengthMin : FenceOpening.lengthMin ≤ op.length
  opens : Opens o p first front op

theorem OpensAt.opening_ne_nil {front opening : List Char} (h : o.OpensAt p op r front opening) :
    opening ≠ [] := by
  intro hnil
  have hstarts := h.starts
  rw [hnil] at hstarts
  cases hstarts

/-- **The text of an opening.** The line that opens a fence may say something else behind its
marker. -/
theorem exists_opensAt (h : (o.step (r.lineAt p)).2.leaf = .fence op [] ending) :
    ∃ front opening, o.OpensAt p op r front opening := by
  obtain ⟨H, g, ms, W, hglyphs, hg, hstart, hW, hread, hstep⟩ := step_opening h
  obtain ⟨front, back, column, htext, hback, hfront⟩ :=
    exists_cut (Glyph.isSpace_of_isTick hg) hglyphs
  have hspelled := spelled_glyphsAt (p + byteLength front) column back
  rw [← hback] at hspelled
  have hhead : back.head? = some g.char := by rw [← hspelled.head?_char]; rfl
  have htick := Glyph.isTick_iff.mp hg
  obtain ⟨hmarker, hlength, hmin⟩ := FenceOpening.marker_of_read? hspelled hW hhead htick hread
  have hplace : g.start = p + byteLength front := by
    have hne : back ≠ [] := by
      rintro rfl
      cases hhead
    have hstart := startOf_glyphsAt (p + byteLength front) column hne 0
    rwa [← hback] at hstart
  rw [← hmarker] at hhead htick hlength
  refine ⟨front, back, htext, hhead, htick, by rw [hstart, hplace], hlength, hmin, ?_⟩
  intro back' ending' op₀ hhead' hread₀
  -- the marker starts with the same glyph
  obtain ⟨ms', hback'⟩ : ∃ ms', glyphsAt (p + byteLength front) column back' = g :: ms' := by
    obtain ⟨rest, rfl⟩ := List.head?_eq_some_iff.mp hhead
    obtain ⟨rest', rfl⟩ := List.head?_eq_some_iff.mp hhead'
    have htab : op.marker ≠ '\t' := by
      rcases htick with h | h <;> rw [h] <;> decide
    rw [glyphsAt, if_neg htab] at hback ⊢
    rw [(List.cons.inj hback).1]
    exact ⟨_, rfl⟩
  obtain ⟨op', hread', hstart', halike⟩ := FenceOpening.exists_read? (spelled_glyphsAt 0 0 back')
    (spelled_glyphsAt (p + byteLength front) column back') hW hhead' htick hread₀
  rw [hback'] at hread' hstart'
  have hindent : op'.indent = op.indent :=
    (FenceOpening.indent_of_read? hW hg hread').trans
      (FenceOpening.indent_of_read? hW hg hread).symm
  have hline := hstep (RawLine.lineAt p ⟨front ++ back', ending'⟩) ms' op'
    (by rw [← hback']; exact hfront back') hread'
  rw [endingText_lineAt] at hline
  exact ⟨op', _, _, halike, by rw [hstart', ← hplace]; rfl, hindent, hline⟩

/-- The text of a fence goes on from its marker to the last line end of its lines, or to its place
in front of that. -/
theorem OpensAt.exists_tail {front opening left : List Char} {inner : List RawLine}
    (h : o.OpensAt p op r front opening) (hleft : left = (inner.getLastD r).ending ∨ left = []) :
    ∃ tail, flat (r :: inner) = front ++ (opening ++ tail) ++ left := by
  rw [flat_cons, h.firstText]
  rcases hleft with rfl | rfl
  · rcases List.eq_nil_or_concat inner with rfl | ⟨lines, last, rfl⟩
    · exact ⟨[], by simp⟩
    · exact ⟨r.ending ++ (flat lines ++ last.text), by simp⟩
  · exact ⟨r.ending ++ flat inner, by simp⟩

/-- **The text of a closing line.** What stands in front of the marker stands in front of lines of
the same containers. -/
theorem exists_closing {q : RawLine} (h : o.ClosedBy op (q.lineAt p))
    (hmarker : op.marker = '`' ∨ op.marker = '~') (hlength : FenceOpening.lengthMin ≤ op.length) :
    ∃ front back, q.text = front ++ back ∧ back.head? = some op.marker ∧ op.marker ∉ front ∧
      op.length ≤ leadingRun op.marker back ∧ (back.dropWhile (· = op.marker)).all isGap = true ∧
      IsMargin o.containers front := by
  -- the line in its parts: what the containers take, spaces, and the marker
  obtain ⟨H, hH, hall⟩ := exists_front_of_continued o.containers.reverse (q.lineAt p).glyphs
  obtain ⟨W, g, ms, hbehind, hW, hg, hchar, hrun, hblank⟩ :=
    FenceOpening.exists_of_closedBy h.closes hmarker hlength
  have hleft : (continued o.containers.reverse (q.lineAt p).glyphs).2 = W ++ g :: ms := hbehind
  have hkeeps :
    (continued o.containers.reverse (q.lineAt p).glyphs).1.length = o.containers.length :=
    h.keeps
  rw [hleft, ← List.append_assoc] at hH
  obtain ⟨front, back, column, htext, hback, hfront⟩ := exists_cut (Glyph.isSpace_of_isTick hg) hH
  have hfront' : glyphsAt p 0 front = H ++ W := by
    have hnil := hfront []
    rwa [List.append_nil, glyphsAt, List.append_nil] at hnil
  rw [hH, ← hfront'] at hkeeps hleft
  have hspelled := spelled_glyphsAt (p + byteLength front) column back
  rw [← hback] at hspelled
  have hspace : (decide (' ' = op.marker)) = false := by
    rcases hmarker with h | h <;> rw [h] <;> rfl
  have htab : (decide ('\t' = op.marker)) = false := by rcases hmarker with h | h <;> rw [h] <;> rfl
  refine ⟨front, back, htext, by rw [← hspelled.head?_char, ← hchar]; rfl, ?_, ?_, ?_,
    isMargin_of_continued hg hW hkeeps hleft⟩
  · -- what stands in front of the marker are spaces and angle brackets
    intro hmem
    obtain ⟨k, hk, hkchar⟩ := (spelled_glyphsAt p 0 front).exists_mem hmem
    rw [hfront', List.mem_append] at hk
    have htick : k.isTick = true := Glyph.isTick_iff.mpr (by rw [hkchar]; exact hmarker)
    have hspace : k.isSpace = true ∨ k.char = '>' :=
      hk.elim (hall k) fun hk => Or.inl (List.all_eq_true.mp hW.isSpace k hk)
    rcases hspace with hspace | hquote
    · rw [Glyph.isSpace_of_isTick htick] at hspace
      cases hspace
    · rw [hkchar] at hquote
      rcases hmarker with h | h <;> rw [h] at hquote <;> exact absurd hquote (by decide)
  · have hlen :=
      congrArg List.length (hspelled.map_takeWhile (p := fun d => d = op.marker) hspace htab)
    rw [List.length_map] at hlen
    rw [leadingRun, ← hlen]
    exact hrun
  · obtain ⟨-, hrest⟩ := hspelled.span (p := fun d => d = op.marker) (htab.trans hspace.symm)
    rw [← hrest.all_eq (p := isGap) rfl]
    exact hblank

end Outline

end LiveDoc.Markdown
