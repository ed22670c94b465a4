import LiveDoc.Proofs.Markdown.RawLine
import LiveDoc.Proofs.Text.Slice

/-!
# Glyphs in the order of the text

Every glyph of a text stands in it: the text can be cut where the glyph starts and where it stops
(`Glyph.StandsIn`). One glyph stops before the next one starts, also within a tab and around a line
end (`stands_ofText`). So a run of glyphs can be cut out of the text (`Stands.spanOf`), and two runs
lie apart (`Stands.stop_le_start`).
-/

namespace LiveDoc.Markdown

open Text (byteLength byteLength_append)

/-- A place of a text between two of its characters. -/
def CutsAt (s : List Char) (place : Nat) : Prop :=
  ∃ before after, s = before ++ after ∧ byteLength before = place

/-- A text can be cut at both ends of a glyph, and a backtick stands for itself. -/
structure Glyph.StandsIn (s : List Char) (g : Glyph) : Prop where
  start : CutsAt s g.start
  stop : CutsAt s g.stop
  le : g.start ≤ g.stop
  tick : g.char = '`' → g.stop = g.start + 1 ∧
    ∃ before after, s = before ++ '`' :: after ∧ byteLength before = g.start

/-- Glyphs stand in a text one behind the other, from one place to another. -/
structure Stands (s : List Char) (first last : Nat) (gs : List Glyph) : Prop where
  each : ∀ g ∈ gs, g.StandsIn s ∧ first ≤ g.start ∧ g.stop ≤ last
  order : gs.Pairwise fun a b => a.stop ≤ b.start

variable {s front text back : List Char} {first mid last : Nat} {gs hs : List Glyph}

namespace Stands

theorem nil (s : List Char) (first last : Nat) : Stands s first last [] :=
  ⟨fun _ hg => absurd hg List.not_mem_nil, .nil⟩

theorem sublist (h : Stands s first last gs) (hsub : hs.Sublist gs) : Stands s first last hs :=
  ⟨fun g hg => h.each g (hsub.mem hg), h.order.sublist hsub⟩

theorem append (h : Stands s first mid gs) (h' : Stands s mid last hs) (hfirst : first ≤ mid)
    (hlast : mid ≤ last) : Stands s first last (gs ++ hs) := by
  constructor
  · intro g hg
    rcases List.mem_append.mp hg with hg | hg
    · obtain ⟨hstands, hstart, hstop⟩ := h.each g hg
      exact ⟨hstands, hstart, Nat.le_trans hstop hlast⟩
    · obtain ⟨hstands, hstart, hstop⟩ := h'.each g hg
      exact ⟨hstands, Nat.le_trans hfirst hstart, hstop⟩
  · refine List.pairwise_append.mpr ⟨h.order, h'.order, fun a ha b hb => ?_⟩
    exact Nat.le_trans (h.each a ha).2.2 (h'.each b hb).2.1

/-- What stands around a glyph does not matter. -/
theorem of_shifted (h : Stands s first last (shifted 0 gs)) : Stands s first last gs := by
  refine ⟨fun g hg => ?_, List.pairwise_map.mp h.order⟩
  obtain ⟨hstands, hle⟩ := h.each (g.shift 0) (List.mem_map_of_mem hg)
  exact ⟨⟨hstands.start, hstands.stop, hstands.le, hstands.tick⟩, hle⟩

end Stands

/-! ## Runs -/

/-- A text falls into two parts at a place in one way. -/
theorem append_inj_of_byteLength {front' back' : List Char} (h : front ++ back = front' ++ back')
    (hlength : byteLength front = byteLength front') : front = front' ∧ back = back' := by
  have htake := Text.takeBytes_append front back
  have hdrop := Text.dropBytes_append front back
  rw [h, hlength, Text.takeBytes_append] at htake
  rw [h, hlength, Text.dropBytes_append] at hdrop
  exact ⟨(Option.some.inj htake).symm, (Option.some.inj hdrop).symm⟩

/-- Of two parts of a text in front, the longer one goes on where the shorter one ends. -/
theorem exists_append_of_byteLength_le {front' back' : List Char}
    (h : front ++ back = front' ++ back') (hle : byteLength front ≤ byteLength front') :
    ∃ mid, front' = front ++ mid ∧ back = mid ++ back' := by
  rcases List.append_eq_append_iff.mp h with hmid | ⟨more, rfl, rfl⟩
  · exact hmid
  · rw [byteLength_append] at hle
    obtain rfl : more = [] := Text.byteLength_eq_zero_iff.mp (by omega)
    exact ⟨[], by simp, rfl⟩

/-- What is cut out within a part of a text is part of it. -/
theorem exists_parts_of_slice {span : Text.Span} {old : List Char}
    (hs : s = front ++ (text ++ back)) (hslice : Text.slice s span = some old)
    (hstart : byteLength front ≤ span.start)
    (hstop : span.stop ≤ byteLength front + byteLength text) :
    ∃ pre post, text = pre ++ (old ++ post) ∧ span.start = byteLength front + byteLength pre ∧
      span.stop = span.start + byteLength old := by
  obtain ⟨before, after, hwhole, hbefore, hlength⟩ := Text.slice_eq_some_iff.mp hslice
  rw [hbefore] at hstart
  obtain ⟨pre, rfl, hrest⟩ := exists_append_of_byteLength_le (hs.symm.trans hwhole) hstart
  rw [← List.append_assoc] at hrest
  obtain ⟨post, htext, -⟩ := exists_append_of_byteLength_le hrest.symm (by
    simp only [byteLength_append] at hlength ⊢
    omega)
  rw [byteLength_append] at hbefore hlength
  exact ⟨pre, post, by simpa using htext, hbefore, by omega⟩

theorem exists_slice {span : Text.Span} (hstart : CutsAt s span.start) (hstop : CutsAt s span.stop)
    (hle : span.start ≤ span.stop) : ∃ old, Text.slice s span = some old := by
  obtain ⟨before, rest, rfl, hbefore⟩ := hstart
  obtain ⟨upTo, after, hsame, hupTo⟩ := hstop
  rcases List.append_eq_append_iff.mp hsame with ⟨old, rfl, rfl⟩ | ⟨more, rfl, rfl⟩
  · rw [byteLength_append] at hupTo
    exact ⟨old, Text.slice_eq_some_iff.mpr ⟨before, after, rfl, hbefore.symm, by omega⟩⟩
  · rw [byteLength_append] at hbefore
    obtain rfl : more = [] := Text.byteLength_eq_zero_iff.mp (by omega)
    refine ⟨[], Text.slice_eq_some_iff.mpr ⟨upTo, rest, by simp, ?_, ?_⟩⟩
    · simpa [byteLength] using hbefore.symm
    · simpa [byteLength] using hupTo.symm

namespace Stands

/-- The first glyph of a run starts before the last one stops. -/
theorem exists_ends (h : Stands s first last gs) (hne : gs ≠ []) :
    ∃ a ∈ gs, ∃ b ∈ gs, Glyph.spanOf gs = ⟨a.start, b.stop⟩ ∧ gs.head? = some a ∧
      a.stop ≤ b.stop := by
  obtain ⟨a, more, rfl⟩ := List.exists_cons_of_ne_nil hne
  cases hlast : more.getLast? with
  | none =>
    obtain rfl := List.getLast?_eq_none_iff.mp hlast
    exact ⟨a, by simp, a, by simp, rfl, rfl, Nat.le_refl _⟩
  | some b =>
    have hb : b ∈ more := List.mem_of_getLast? hlast
    have hstop := (List.pairwise_cons.mp h.order).1 b hb
    refine ⟨a, by simp, b, by simp [hb], ?_, rfl, ?_⟩
    · simp [Glyph.spanOf, Glyph.startOf, Glyph.stopOf, List.getLast?_cons, hlast]
    · exact Nat.le_trans hstop (h.each b (by simp [hb])).1.le

/-- A run of glyphs can be cut out of the text. -/
theorem spanOf (h : Stands s first last gs) (hne : gs ≠ []) :
    first ≤ (Glyph.spanOf gs).start ∧ (Glyph.spanOf gs).stop ≤ last ∧
      ∃ old, Text.slice s (Glyph.spanOf gs) = some old := by
  obtain ⟨a, ha, b, hb, hspan, -, hle⟩ := h.exists_ends hne
  obtain ⟨hstart, hfirst, -⟩ := h.each a ha
  obtain ⟨hstop, -, hlast⟩ := h.each b hb
  rw [hspan]
  exact ⟨hfirst, hlast, exists_slice hstart.start hstop.stop (Nat.le_trans hstart.le hle)⟩

/-- What is cut out for a run that starts with a backtick starts with it. -/
theorem exists_slice_tick (h : Stands s first last gs) (htick : gs.head?.map (·.char) = some '`') :
    ∃ more, Text.slice s (Glyph.spanOf gs) = some ('`' :: more) := by
  have hne : gs ≠ [] := by
    rintro rfl
    cases htick
  obtain ⟨-, -, old, hold⟩ := h.spanOf hne
  obtain ⟨a, ha, b, hb, hspan, hhead, hle⟩ := h.exists_ends hne
  rw [hhead] at htick
  obtain ⟨hstop, front, back, hfront, hstart⟩ := (h.each a ha).1.tick (Option.some.inj htick)
  rw [hold]
  obtain ⟨before, after, hwhole, hbefore, hlength⟩ := Text.slice_eq_some_iff.mp hold
  rw [hspan] at hbefore hlength
  dsimp only at hbefore hlength
  have hparts := append_inj_of_byteLength (hfront.symm.trans hwhole) (hstart.trans hbefore)
  obtain ⟨rfl, hrest⟩ := hparts
  cases old with
  | nil =>
    rw [byteLength] at hlength
    omega
  | cons c more =>
    obtain ⟨rfl, -⟩ := List.cons.inj hrest
    exact ⟨more, rfl⟩

/-- A run stops before the one behind it starts. -/
theorem stop_le_start (h : Stands s first last (gs ++ hs)) (hgs : gs ≠ []) (hhs : hs ≠ []) :
    (Glyph.spanOf gs).stop ≤ (Glyph.spanOf hs).start := by
  obtain ⟨a, -, b, hb, hspan, -⟩ := (h.sublist (List.sublist_append_left _ _)).exists_ends hgs
  obtain ⟨c, hc, d, -, hspan', -⟩ := (h.sublist (List.sublist_append_right _ _)).exists_ends hhs
  rw [hspan, hspan']
  exact (List.pairwise_append.mp h.order).2.2 b hb c hc

/-- What follows a run stands behind it. -/
theorem behind (h : Stands s first last (gs ++ hs)) (hne : gs ≠ []) :
    Stands s (Glyph.spanOf gs).stop last hs := by
  obtain ⟨a, -, b, hb, hspan, -⟩ := (h.sublist (List.sublist_append_left _ _)).exists_ends hne
  obtain ⟨-, horder, hcross⟩ := List.pairwise_append.mp h.order
  refine ⟨fun g hg => ?_, horder⟩
  obtain ⟨hstands, -, hstop⟩ := h.each g (List.mem_append_right gs hg)
  rw [hspan]
  exact ⟨hstands, hcross b hb g hg, hstop⟩

/-- Glyphs stand between the ends of their run. -/
theorem narrow (h : Stands s first last gs) :
    Stands s (Glyph.spanOf gs).start (Glyph.spanOf gs).stop gs := by
  refine ⟨fun g hg => ⟨(h.each g hg).1, ?_, ?_⟩, h.order⟩
  · cases gs with
    | nil => cases hg
    | cons a more =>
      rcases List.mem_cons.mp hg with rfl | hg
      · exact Nat.le_refl _
      · exact Nat.le_trans (h.each a List.mem_cons_self).1.le
          ((List.pairwise_cons.mp h.order).1 g hg)
  · rcases List.eq_nil_or_concat gs with rfl | ⟨front, b, rfl⟩
    · cases hg
    · rw [List.concat_eq_append] at h hg ⊢
      have hstop : (Glyph.spanOf (front ++ [b])).stop = b.stop := by
        simp [Glyph.spanOf, Glyph.stopOf]
      rw [hstop]
      rcases List.mem_append.mp hg with hg | hg
      · exact Nat.le_trans ((List.pairwise_append.mp h.order).2.2 g hg b (by simp))
          (h.each b (by simp)).1.le
      · rw [List.mem_singleton.mp hg]

end Stands

/-! ## The glyphs of a text -/

theorem cutsAt_append (front back : List Char) : CutsAt (front ++ back) (byteLength front) :=
  ⟨front, back, rfl, rfl⟩

/-- White space is no backtick. -/
theorem ne_backtick : ∀ c ∈ [' ', '\t', '\n'], c ≠ '`' := by simp

/-- The columns of a tab start where it does, and only the last one stops behind it. -/
theorem stands_tabColumns (hs : s = front ++ '\t' :: back) (column : Nat) :
    Stands s (byteLength front) (byteLength front + 1)
      (Line.tabColumns (byteLength front) column none none) := by
  have hbefore : CutsAt s (byteLength front) := hs ▸ cutsAt_append front ('\t' :: back)
  have hbehind : CutsAt s (byteLength front + 1) := by
    refine ⟨front ++ ['\t'], back, by simp [hs], ?_⟩
    rw [byteLength_append]
    rfl
  simp only [Line.tabColumns]
  generalize Glyph.tabWidth - column % Glyph.tabWidth = width
  constructor
  · intro g hg
    obtain ⟨i, -, rfl⟩ := List.mem_map.mp hg
    have hstop : CutsAt s (if i + 1 = width then byteLength front + 1 else byteLength front) := by
      split
      · exact hbehind
      · exact hbefore
    have hle :
        byteLength front ≤ (if i + 1 = width then byteLength front + 1 else byteLength front) ∧
        (if i + 1 = width then byteLength front + 1 else byteLength front) ≤
          byteLength front + 1 := by
      split <;> omega
    by_cases hzero : i = 0
    · rw [if_pos hzero]
      exact ⟨⟨hbefore, hstop, hle.1, fun htick => absurd htick (ne_backtick '\t' (by simp))⟩,
        Nat.le_refl _, hle.2⟩
    · rw [if_neg hzero]
      exact ⟨⟨hbefore, hstop, hle.1, fun htick => absurd htick (ne_backtick ' ' (by simp))⟩,
        Nat.le_refl _, hle.2⟩
  · rw [List.pairwise_map]
    refine List.pairwise_lt_range.imp_of_mem fun {i j} hi hj hlt => ?_
    have hlast : i + 1 ≠ width := by
      have hwidth := List.mem_range.mp hj
      omega
    simp only [hlast, if_false]
    by_cases hzero : i = 0 <;> by_cases hzero' : j = 0 <;> simp [hzero, hzero']

/-- The glyphs of a part of a text stand there. -/
theorem stands_glyphsAt (hs : s = front ++ (text ++ back)) (column : Nat) :
    Stands s (byteLength front) (byteLength front + byteLength text)
      (glyphsAt (byteLength front) column text) := by
  induction text generalizing front column with
  | nil => exact .nil ..
  | cons c rest ih =>
    have hfront : byteLength (front ++ [c]) = byteLength front + c.utf8Size := byteLength_append _ _
    have hs' : s = (front ++ [c]) ++ (rest ++ back) := by simp [hs]
    have hrest := fun column => ih hs' column
    rw [hfront] at hrest
    rw [byteLength, ← Nat.add_assoc, glyphsAt]
    split
    · next htab =>
      subst htab
      exact (stands_tabColumns (by simpa using hs) column).append (hrest _) (Nat.le_succ _)
        (Nat.le_add_right _ _)
    · rw [← List.singleton_append]
      refine Stands.append ⟨?_, List.pairwise_singleton _ _⟩ (hrest _) (Nat.le_add_right _ _)
        (Nat.le_add_right _ _)
      intro g hg
      obtain rfl := List.mem_singleton.mp hg
      refine ⟨⟨hs ▸ cutsAt_append front _, ⟨front ++ [c], rest ++ back, by simp [hs], hfront⟩,
        Nat.le_add_right _ _, ?_⟩, Nat.le_refl _, Nat.le_refl _⟩
      intro htick
      obtain rfl : c = '`' := htick
      exact ⟨rfl, front, rest ++ back, by simpa using hs, rfl⟩

/-- The glyphs of a line stand in the text, and its line end behind them. -/
theorem stands_lineAt {r : RawLine} (hs : s = front ++ (r.all ++ back)) :
    Stands s (byteLength front) (byteLength front + r.size) (r.lineAt (byteLength front)).all := by
  have hs' : s = front ++ (r.text ++ (r.ending ++ back)) := by
    rw [hs, RawLine.all, List.append_assoc]
  have hsize : r.size = byteLength r.text + byteLength r.ending := byteLength_append _ _
  rw [hsize, ← Nat.add_assoc]
  refine (stands_glyphsAt hs' 0).append ?_ (Nat.le_add_right _ _) (Nat.le_add_right _ _)
  show Stands s _ _ (endGlyph? (byteLength front + byteLength r.text) r.ending).toList
  rw [endGlyph?]
  split
  · exact .nil ..
  · refine ⟨fun g hg => ?_, List.pairwise_singleton _ _⟩
    obtain rfl := List.mem_singleton.mp hg
    refine ⟨⟨⟨front ++ r.text, r.ending ++ back, by simp [hs'], byteLength_append _ _⟩,
      ⟨front ++ (r.text ++ r.ending), back, by simp [hs'], ?_⟩, Nat.le_add_right _ _,
      fun htick => absurd htick (ne_backtick '\n' (by simp))⟩, Nat.le_refl _, Nat.le_refl _⟩
    rw [byteLength_append, byteLength_append, Nat.add_assoc]

theorem stands_linesAt {rs : List RawLine} (hs : s = front ++ (flat rs ++ back)) :
    Stands s (byteLength front) (byteLength front + byteLength (flat rs))
      ((linesAt (byteLength front) rs).flatMap Line.all) := by
  induction rs generalizing front with
  | nil => exact .nil ..
  | cons r rest ih =>
    have hflat : flat (r :: rest) = r.all ++ flat rest := rfl
    have hfront : byteLength (front ++ r.all) = byteLength front + r.size := byteLength_append _ _
    have hfirst : s = front ++ (r.all ++ (flat rest ++ back)) := by simp [hs, hflat]
    have hbehind : s = (front ++ r.all) ++ (flat rest ++ back) := by simp [hs, hflat]
    have hrest := ih hbehind
    rw [hfront] at hrest
    rw [hflat, byteLength_append, ← Nat.add_assoc, linesAt, List.flatMap_cons]
    exact (stands_lineAt hfirst).append hrest (Nat.le_add_right _ _) (Nat.le_add_right _ _)

/-- **The glyphs of a text stand in it**, one behind the other. -/
theorem stands_ofText (s : List Char) :
    Stands s 0 (byteLength s) ((Line.ofText s).flatMap Line.all) := by
  obtain ⟨mark, hs, hmark⟩ : ∃ mark, s = mark ++ dropMark s ∧ byteLength mark = startOfText s := by
    unfold dropMark startOfText
    by_cases h : s.head? = some byteOrderMark
    · obtain ⟨rest, rfl⟩ := List.head?_eq_some_iff.mp h
      exact ⟨[byteOrderMark], by simp, by simp [byteLength]; rfl⟩
    · exact ⟨[], by simp [h], by simp [h, byteLength]⟩
  have hflat : s = mark ++ (flat (rawLines (dropMark s)) ++ []) := by
    rw [flat_rawLines, List.append_nil, ← hs]
  have hlines := stands_linesAt hflat
  rw [hmark, ← map_shift_ofText] at hlines
  have hshift : ((Line.ofText s).map (Line.shift 0)).flatMap Line.all =
      shifted 0 ((Line.ofText s).flatMap Line.all) := by
    simp only [List.flatMap_map, Line.all_shift, shifted, List.map_flatMap]
  have hlast : startOfText s + byteLength (flat (rawLines (dropMark s))) = byteLength s := by
    rw [flat_rawLines, ← hmark, ← byteLength_append, ← hs]
  rw [hshift, hlast] at hlines
  obtain ⟨heach, horder⟩ := hlines.of_shifted
  refine ⟨fun g hg => ?_, horder⟩
  obtain ⟨hstands, -, hstop⟩ := heach g hg
  exact ⟨hstands, Nat.zero_le _, hstop⟩

end LiveDoc.Markdown
