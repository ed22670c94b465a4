import LiveDoc.Proofs.Markdown.Follows
import LiveDoc.Proofs.Markdown.RawLine

/-!
# Paragraphs from their first line to their last

A paragraph outside of all containers is `Opened` by its first line, and the lines behind it go on
with it. Where nothing is defined, all its lines are one block (`Content.blocks_eq`).
-/

namespace LiveDoc.Markdown

open Text (Span byteLength)

/-! ## The block of a paragraph -/

/-- A block that defines a label. -/
def Block.Defines (b : Block) : Prop := b.mark = .element .definition

theorem Block.isParagraph_of_defines {b : Block} (h : b.Defines) : b.isParagraph = false := by
  unfold Defines at h
  cases b with
  | text e span gs => cases h; rfl
  | bare e span => cases h; rfl
  | _ => rfl

namespace Content

theorem blocks_eq_append (lead : Option Line) (lines : List Line) :
    blocks lead lines = (parts lead lines).1 ++
      if (parts lead lines).2 = [] then [] else [textBlock .paragraph (parts lead lines).2] := by
  unfold blocks
  dsimp only
  split
  · next hnil => rw [if_pos (List.isEmpty_iff.mp hnil), List.append_nil]
  · next hne => rw [if_neg (by simpa using hne)]

theorem definitions_eq {fuel : Nat} {gs : List Glyph}
    (h : ∀ b ∈ (definitions fuel gs).1, ¬ b.Defines) : definitions fuel gs = ([], gs) := by
  cases fuel with
  | zero => rfl
  | succ fuel =>
    rw [definitions] at h ⊢
    split
    · rfl
    · next label rest hdef =>
      rw [hdef] at h
      exact absurd rfl (h _ List.mem_cons_self)

theorem glyphs_append_lead {lines : List Line} (hne : lines ≠ []) (l : Line) :
    glyphs (lines ++ [l]) = l.all ++ glyphs lines := by
  cases lines with
  | nil => exact absurd rfl hne
  | cons last earlier => simp [glyphs]

/-- Lines without definitions are text as a whole. -/
theorem parts_eq {lead : Option Line} {lines : List Line}
    (h : ∀ b ∈ (parts lead lines).1, ¬ b.Defines) :
    parts lead lines = ([], glyphs (lines ++ lead.toList)) := by
  have hdefs : ∀ l, lead = some l → lines = [] ∨ (definitions lines.length (glyphs lines)).1 = [] ∨
      ∃ b ∈ (parts lead lines).1, b.Defines := by
    rintro l rfl
    cases hlines : lines with
    | nil => exact Or.inl rfl
    | cons last earlier =>
      refine Or.inr ?_
      cases hfound : (definitions (last :: earlier).length (glyphs (last :: earlier))).1 with
      | nil => exact Or.inl rfl
      | cons b more =>
        have hmem : b ∈ (definitions (last :: earlier).length (glyphs (last :: earlier))).1 := by
          rw [hfound]
          exact List.mem_cons_self
        refine Or.inr ⟨b, ?_, isDefinition_of_mem_definitions hmem⟩
        rw [List.length_cons] at hfound
        simp [parts, hfound]
  cases lead with
  | none =>
    have hnone : parts none lines = definitions lines.length (glyphs lines) := rfl
    rw [hnone] at h ⊢
    rw [definitions_eq h, Option.toList_none, List.append_nil]
  | some l =>
    rcases hdefs l rfl with rfl | hnil | ⟨b, hb, hdefines⟩
    · rfl
    · by_cases hlines : lines = []
      · rw [hlines]
        rfl
      · have hall : definitions lines.length (glyphs lines) = ([], glyphs lines) := by
          refine definitions_eq fun b hb => ?_
          rw [hnil] at hb
          exact absurd hb List.not_mem_nil
        rw [Option.toList_some, glyphs_append_lead hlines]
        simp [parts, hall, hlines]
    · exact absurd hdefines (h b hb)

/-- In front of the text of a paragraph stand definitions, and a line that comes before them. -/
theorem mem_parts {lead : Option Line} {lines : List Line} {b : Block}
    (h : b ∈ (parts lead lines).1) :
    b.Defines ∨ ∃ l, lead = some l ∧ b = textBlock .paragraph l.glyphs := by
  unfold parts at h
  dsimp only at h
  split at h
  · exact Or.inl (isDefinition_of_mem_definitions h)
  · next l =>
    split at h
    · cases h
    · split at h
      · cases h
      · rcases List.mem_cons.mp h with rfl | h
        · exact Or.inr ⟨l, rfl, rfl⟩
        · exact Or.inl (isDefinition_of_mem_definitions h)

/-- A definition stands right in front of the text of a paragraph, if anything does. -/
theorem parts_eq_append {lead : Option Line} {lines : List Line} (h : (parts lead lines).1 ≠ []) :
    ∃ front d, (parts lead lines).1 = front ++ [d] ∧ d.Defines := by
  have hdefs : ∀ defs, (definitions lines.length (glyphs lines)).1 = defs → defs ≠ [] →
      ∃ front d, defs = front ++ [d] ∧ d.Defines := by
    rintro defs hsame hne
    refine ⟨defs.dropLast, defs.getLast hne, (List.dropLast_append_getLast hne).symm, ?_⟩
    exact isDefinition_of_mem_definitions (by rw [hsame]; exact List.getLast_mem hne)
  unfold parts at h ⊢
  dsimp only at h ⊢
  split at h
  · exact hdefs _ rfl h
  · next l =>
    split at h
    · exact absurd rfl h
    · next hlines =>
      split at h
      · exact absurd rfl h
      · next hsome =>
        obtain ⟨front, d, heq, hd⟩ := hdefs _ rfl (by simpa using hsome)
        refine ⟨textBlock .paragraph l.glyphs :: front, d, ?_, hd⟩
        simp only [hlines, hsome, Bool.false_eq_true, if_false]
        rw [heq]
        rfl

theorem glyphs_ne_nil {l : Line} {ls : List Line} (h : l.glyphs ≠ []) : glyphs (l :: ls) ≠ [] := by
  simp [glyphs, h]

/-- Lines without definitions are one paragraph. -/
theorem blocks_eq {lead : Option Line} {lines : List Line}
    (hdefs : ∀ b ∈ blocks lead lines, ¬ b.Defines) (hne : glyphs (lines ++ lead.toList) ≠ []) :
    blocks lead lines = [textBlock .paragraph (glyphs (lines ++ lead.toList))] := by
  have hparts : parts lead lines = ([], glyphs (lines ++ lead.toList)) := by
    refine parts_eq fun b hb => hdefs b ?_
    unfold blocks
    dsimp only
    split
    · exact hb
    · exact List.mem_append_left _ hb
  unfold blocks
  rw [hparts]
  simp [hne]

/-- A text that starts with no definition is one paragraph. -/
theorem blocks_of_definition?_eq_none {lines : List Line}
    (hdef : Target.definition? (glyphs lines) = none) (hne : glyphs lines ≠ []) :
    blocks none lines = [textBlock .paragraph (glyphs lines)] := by
  have hparts : parts none lines = ([], glyphs lines) := by
    show definitions lines.length (glyphs lines) = _
    cases lines.length with
    | zero => rfl
    | succ n => simp only [definitions, hdef]
  rw [blocks, hparts]
  simp [hne]

end Content

theorem Line.Placed.startOf {l : Line} (h : l.Placed) (hne : l.glyphs ≠ []) :
    Glyph.startOf 0 l.glyphs = l.start := by
  obtain ⟨g, rest, hgs⟩ := List.exists_cons_of_ne_nil hne
  have hstart : Glyph.startOf l.stop l.glyphs = l.start := congrArg Line.start h
  rw [← hstart, hgs]
  rfl

theorem stopOf_eq {gs : List Glyph} (hne : gs ≠ []) (n m : Nat) :
    Glyph.stopOf n gs = Glyph.stopOf m gs := by
  unfold Glyph.stopOf
  cases hlast : gs.getLast? with
  | none => exact absurd (List.getLast?_eq_none_iff.mp hlast) hne
  | some g => rfl

/-- A paragraph reaches from the start of its first line to the end of its last one. -/
theorem Content.spanOf_glyphs {first last : Line} {earlier : List Line}
    (hfirst : (last :: earlier).getLast? = some first) (hplaced : first.Placed)
    (hne : first.glyphs ≠ []) (hlast : last.glyphs ≠ []) :
    Glyph.spanOf (glyphs (last :: earlier)) = ⟨first.start, last.stop⟩ := by
  have hstop : Glyph.stopOf 0 (glyphs (last :: earlier)) = last.stop := by
    rw [glyphs, stopOf_append]
    exact stopOf_eq hlast _ _
  have hstart : Glyph.startOf 0 (glyphs (last :: earlier)) = first.start := by
    rw [← hplaced.startOf hne]
    cases hrev : earlier.reverse with
    | nil =>
      obtain rfl : earlier = [] := List.reverse_eq_nil_iff.mp hrev
      obtain rfl : last = first := by simpa using hfirst
      simp [glyphs]
    | cons l more =>
      obtain rfl : l = first := by
        have hmem : (earlier.reverse).head? = some l := by rw [hrev]; rfl
        rw [List.head?_reverse] at hmem
        rw [List.getLast?_cons, hmem] at hfirst
        simpa using hfirst
      obtain ⟨g, gs, hgs⟩ := List.exists_cons_of_ne_nil hne
      simp [glyphs, hrev, Line.all, hgs, Glyph.startOf]
  rw [Glyph.spanOf, hstart, hstop]

namespace Reader

/-! ## Blocks stay -/

theorem adds_foldl {R : List Line} (hplaced : ∀ l ∈ R, l.Placed) (r : Reader) :
    Adds (fun _ => True) r (R.foldl step r) := by
  induction R generalizing r with
  | nil => exact .refl r
  | cons l rest ih =>
    have hstep : Adds (fun _ => True) r (r.step l) :=
      adds_step (fun _ _ _ => trivial) (hplaced l List.mem_cons_self)
        (fun _ => ⟨fun _ _ => trivial, fun _ _ => trivial, fun _ _ _ _ _ _ => trivial,
          fun _ _ _ => trivial⟩) fun _ _ _ => trivial
    exact hstep.trans (ih (fun k hk => hplaced k (List.mem_cons_of_mem l hk)) _)

/-! ## Opened paragraphs -/

/-- A reader in the middle of a paragraph with the lines `ls`, reversed, that was `r₀` before its
first line. -/
inductive Opened (r₀ : Reader) : List Line → Reader → Prop
  | first {l : Line} : OpenedBy r₀ (r₀.step l) l → Opened r₀ [l] (r₀.step l)
  | more {l : Line} {ls : List Line} {r : Reader} {lead : Option Line} {lines : List Line}
      {before head : Option Nat} : Opened r₀ ls r → r.leaf = .content lead lines before →
      GoesOn r.interrupting l head →
      r.step l = ⟨r.blocks, [], .content lead (l :: lines) head, true, l.stop, l.next⟩ →
      Opened r₀ (l :: ls) (r.step l)

/-- What there is to know about a reader in the middle of a paragraph. The first line of the
paragraph is set apart when it looks like an underline. -/
structure Holds (r₀ : Reader) (ls : List Line) (lead : Option Line) (lines : List Line)
    (r : Reader) :
    Prop where
  inText : r.InText lead lines
  blocks : r.blocks = r₀.cut.blocks
  lines : lines ++ lead.toList = ls
  ne_nil : ∀ l ∈ ls, l.glyphs ≠ []
  first : ∃ first, ls.getLast? = some first ∧
    (isUnderline first.glyphs = true ∨ lead = none ∧ r.interrupting = true ∧
      ∃ g, first.glyphs.head? = some g ∧ r₀.Ready g.char)

theorem ne_nil_of_isUnderline {gs : List Glyph} (h : isUnderline gs = true) : gs ≠ [] := by
  rintro rfl
  simp [isUnderline, Glyph.cutSpaces, indentMax] at h

theorem Opened.holds {r₀ r : Reader} {ls : List Line} (h : Opened r₀ ls r) :
    ∃ lead lines, Holds r₀ ls lead lines r := by
  induction h with
  | @first l hopened =>
    rcases hopened.leaf with ⟨head, g, hleaf, hinterrupting, hg, hready⟩ | ⟨hleaf, hunderline⟩
    · refine ⟨none, [l], ⟨hopened.frames, head, hleaf⟩, hopened.blocks, rfl, ?_, l, rfl,
        Or.inr ⟨rfl, hinterrupting, g, hg, hready⟩⟩
      intro k hk hnil
      rw [List.mem_singleton.mp hk] at hnil
      rw [hnil] at hg
      cases hg
    · refine ⟨some l, [], ⟨hopened.frames, none, hleaf⟩, hopened.blocks, rfl, ?_, l, rfl,
        Or.inl hunderline⟩
      intro k hk
      rw [List.mem_singleton.mp hk]
      exact ne_nil_of_isUnderline hunderline
  | @more l ls r lead lines before head hopened hleaf hgoes hstep ih =>
    obtain ⟨lead', lines', hholds⟩ := ih
    obtain ⟨before', hleaf'⟩ := hholds.inText.leaf
    rw [hleaf] at hleaf'
    cases hleaf'
    obtain ⟨first, hfirst, hhow⟩ := hholds.first
    refine ⟨lead, l :: lines, ⟨by rw [hstep], head, by rw [hstep]⟩,
      by rw [hstep]; exact hholds.blocks, by rw [List.cons_append, hholds.lines], ?_, first, ?_, ?_⟩
    · intro k hk
      rcases List.mem_cons.mp hk with rfl | hk
      · obtain ⟨g, hg⟩ := exists_head?_of_ofLine hgoes.start
        rintro hnil
        rw [hnil] at hg
        cases hg
      · exact hholds.ne_nil k hk
    · rw [List.getLast?_cons, hfirst]
      rfl
    · exact hhow.imp_right fun ⟨hlead, _, hready⟩ => ⟨hlead, by rw [hstep], hready⟩

theorem Opened.eq_foldl {r₀ r : Reader} {ls : List Line} (h : Opened r₀ ls r) :
    r = ls.reverse.foldl step r₀ := by
  induction h with
  | first _ => rfl
  | more _ _ _ _ ih => rw [List.reverse_cons, List.foldl_append, ← ih]; rfl

/-- The reading has come to the last line of the paragraph. -/
theorem Opened.exists_last {r₀ r : Reader} {ls : List Line} (h : Opened r₀ ls r) :
    ∃ last earlier, ls = last :: earlier ∧ r.stop = last.stop ∧ r.next = last.next := by
  cases h with
  | @first l _ => exact ⟨l, [], rfl, by rw [step_eq], by rw [step_eq]⟩
  | @more l ls => exact ⟨l, ls, rfl, by rw [step_eq], by rw [step_eq]⟩

/-- A line that ends a paragraph does not start the next one. -/
theorem InText.not_text_of_ends {r : Reader} {lead : Option Line} {lines : List Line} {l : Line}
    (h : r.InText lead lines) (hplaced : l.Placed) (hends : Ends r.interrupting l)
    (hframes : (r.step l).frames = []) : (r.step l).leaf.isText = false := by
  have hstep := h.step_ends hplaced hends
  have hopen : Container.open? r.interrupting l.glyphs = none := by
    cases hopen : Container.open? r.interrupting l.glyphs with
    | none => rfl
    | some found =>
      exfalso
      rw [step_root h.frames] at hframes
      have hnew : (r.started l 0 l.glyphs).1 ≠ [] := by
        intro hnil
        obtain ⟨head, hleaf⟩ := h.leaf
        unfold started at hnil
        simp only [hleaf, Leaf.isConcrete, Bool.and_false, Bool.false_eq_true, if_false,
          decide_true, Bool.true_and] at hnil
        rw [(opened_eq_nil hnil).1] at hopen
        cases hopen
      exact frames_place_ne_nil hnew l 0 _ hframes
  obtain ⟨-, hcontent⟩ := hends.resolve_left fun hne => hne hopen
  cases htext : (r.step l).leaf.isText with
  | false => rfl
  | true =>
    exfalso
    rw [hstep, step_of_open?_eq_none (r := r.clear) rfl hopen hplaced] at htext
    unfold feed clear at htext
    simp only [ne_eq, not_true_eq_false, decide_false, Bool.false_eq_true, if_false,
      Leaf.continue?, Bool.not_false, Bool.and_true, Bool.false_and, behind] at htext
    obtain ⟨-, hs⟩ := Leaf.meet_of_isText rfl htext
    rcases (Start.leaf_of_isText hs).2 with ⟨head, hstart, -⟩ | ⟨hstart, -⟩
    · rw [hstart] at hcontent
      cases hcontent
    · have hlazy := (Start.acceptsLazy_of_ofLine hstart).1
      cases hlazy

/-- A line under a paragraph makes it a heading. Under definitions it starts a paragraph. -/
theorem InText.meet_underline {r : Reader} {lead : Option Line} {lines : List Line}
    (h : r.InText lead lines) (l : Line) (stop : Nat) :
    (Content.parts lead lines).2 = [] ∧
        r.leaf.meet .underline l stop = ((Content.parts lead lines).1, .content (some l) [] none) ∨
      ∃ span gs, r.leaf.meet .underline l stop =
        ((Content.parts lead lines).1 ++ [.text .heading span gs], .underlined) := by
  obtain ⟨head, hleaf⟩ := h.leaf
  rw [hleaf]
  unfold Leaf.meet
  dsimp only
  split
  · next defs hparts => exact Or.inl ⟨by rw [hparts], by rw [hparts]⟩
  · next defs g text hparts => exact Or.inr ⟨_, _, by rw [hparts]⟩

theorem InText.cut_blocks {r : Reader} {lead : Option Line} {lines : List Line}
    (h : r.InText lead lines) : r.cut.blocks = (Content.blocks lead lines).reverse ++ r.blocks := by
  obtain ⟨head, hleaf⟩ := h.leaf
  have hclose : r.leaf.close (.cut r.stop) = Content.blocks lead lines := by
    rw [hleaf]
    rfl
  rw [cut, hclose, h.push_eq, h.frames]
  rfl

/-- **In the middle of a paragraph** there was a first line of it. -/
theorem exists_opened {R : List Line} (hplaced : ∀ l ∈ R, l.Placed)
    (hframes : (R.foldl step .empty).frames = [])
    (htext : (R.foldl step .empty).leaf.isText = true) :
    ∃ R₀ ls, R = R₀ ++ ls.reverse ∧ Opened (R₀.foldl step .empty) ls (R.foldl step .empty) := by
  induction R using List.reverseRecOn with
  | nil => cases htext
  | append_singleton R l ih =>
    rw [List.foldl_append, List.foldl_cons, List.foldl_nil] at *
    have hl : l.Placed := hplaced l (by simp)
    have hR : ∀ k ∈ R, k.Placed := fun k hk => hplaced k (by simp [hk])
    by_cases hin : (R.foldl step .empty).frames = [] ∧ (R.foldl step .empty).leaf.isText = true
    · obtain ⟨R₀, ls, hsplit, hopened⟩ := ih hR hin.1 hin.2
      obtain ⟨lead, lines, hholds⟩ := hopened.holds
      cases hholds.inText.next hl with
      | goesOn hgoes hstep =>
        obtain ⟨before, hleaf⟩ := hholds.inText.leaf
        refine ⟨R₀, l :: ls, by rw [hsplit, List.reverse_cons, List.append_assoc], ?_⟩
        exact .more hopened hleaf hgoes hstep
      | table _ _ _ _ hstep => rw [hstep] at htext; cases htext
      | underline hunderline hstep =>
        rcases hholds.inText.meet_underline l (R.foldl step .empty).stop with
          ⟨hnil, hmeet⟩ | ⟨span, gs, hmeet⟩
        · rw [hmeet] at hstep
          refine ⟨R, [l], rfl, .first ⟨by rw [hstep], ?_, Or.inr ⟨by rw [hstep], hunderline⟩⟩⟩
          rw [hstep, hholds.inText.cut_blocks, Content.blocks]
          simp [hnil]
        · rw [hstep, hmeet] at htext
          cases htext
      | ends hends =>
        rw [hholds.inText.not_text_of_ends hl hends hframes] at htext
        cases htext
    · exact ⟨R, [l], rfl, .first (openedBy_of_step hl hin hframes htext)⟩

/-! ## Readers that are ready for a paragraph -/

/-- Where a reader is ready for a paragraph, no other paragraph comes to its end. -/
theorem Ready.adds_cut {r : Reader} {c : Char} (h : r.Ready c) :
    Adds (fun b => b.isParagraph = false) r r.cut := by
  have hpush : Adds (fun b => b.isParagraph = false) r (r.push (r.leaf.close (.cut r.stop))) := by
    refine adds_push _ fun hframes => r.leaf.isParagraph_close ?_ _
    cases h with
    | outside _ hgives =>
      cases hleaf : r.leaf with
      | content lead lines head => rw [hleaf] at hgives; cases hgives
      | _ => rfl
    | inside hlast _ _ => rw [hframes] at hlast; cases hlast
  exact hpush.trans (adds_closeFrames (fun _ _ _ => rfl) _ _ _)

/-- Only the row of a table is told from text by its first character. -/
theorem Ready.congr {r : Reader} {c c' : Char} (h : r.Ready c)
    (hmarker : isMarker c = true → isMarker c' = true) : r.Ready c' := by
  cases h with
  | outside hframes hgives =>
    refine .outside hframes ?_
    cases hleaf : r.leaf with
    | table start stop rows =>
      rw [hleaf] at hgives
      exact hmarker hgives
    | _ => rw [hleaf] at hgives; first | rfl | cases hgives
  | inside hlast hasks hlazy => exact .inside hlast hasks hlazy

/-! ## Lines of text -/

/-- A line that is text behind a line of text goes on with it. -/
theorem goesOn_of_startsText {l : Line} (h : StartsText true l.glyphs) :
    ∃ head, GoesOn true l head := by
  obtain ⟨head, hstart⟩ := h.ofLine .none (m := ⟨true, false, false⟩) (fun _ => ⟨rfl, rfl⟩)
    fun htable => by cases htable
  exact ⟨head, h.container true (Bool.le_true _), hstart, h.underline⟩

/-- Lines of text are read as a paragraph where the reader is ready for it. -/
theorem Ready.foldl {r₀ : Reader} {c : Char} (h : r₀.Ready c) {l : Line} {more : List Line}
    (htext : StartsText false l.glyphs) (hchar : l.glyphs.head?.map (·.char) = some c)
    (hplaced : ∀ k ∈ l :: more, k.Placed)
    (hmore : ∀ k ∈ more, StartsText true k.glyphs ∧ Table.drawsRule k.glyphs = false) :
    ((l :: more).foldl Reader.step r₀).InText none (l :: more).reverse ∧
      ((l :: more).foldl Reader.step r₀).blocks = r₀.cut.blocks ∧
      ((l :: more).foldl Reader.step r₀).interrupting = true := by
  induction more using List.reverseRecOn with
  | nil =>
    obtain ⟨head, hstep⟩ := h.step htext hchar (hplaced l List.mem_cons_self)
    rw [List.foldl_cons, List.foldl_nil, hstep]
    exact ⟨⟨rfl, head, rfl⟩, rfl, rfl⟩
  | append_singleton more k ih =>
    obtain ⟨hin, hblocks, hinterrupting⟩ := ih (fun j hj => hplaced j (by
      rcases List.mem_cons.mp hj with rfl | hj <;> simp [*]))
      fun j hj => hmore j (List.mem_append_left _ hj)
    obtain ⟨hk, hrule⟩ := hmore k (by simp)
    obtain ⟨head, hgoes⟩ := goesOn_of_startsText hk
    have hstep := hin.step_goesOn (hplaced k (by simp)) (hinterrupting ▸ hgoes)
      (hin.continue?_eq_none fun cells => Table.isRule_eq_false hrule cells)
    rw [← List.cons_append, List.foldl_append, List.foldl_cons, List.foldl_nil, hstep,
      List.reverse_append]
    exact ⟨⟨rfl, head, rfl⟩, hblocks, rfl⟩

/-- The code of a reader that has come to the end stops in front of it. -/
theorem InOrder.flush {r : Reader} (h : r.InOrder) (count : Nat) :
    ∀ b ∈ (r.flush count).blocks, b.StopsBy r.next := by
  have hclose : Adds (Block.StopsBy r.next) r (r.push (r.leaf.close (.flushed r.stop r.next))) :=
    adds_push _ fun hframes =>
      r.leaf.stopsBy_close (h.leaf hframes) (r.leaf.endAt_le h.stop (Nat.le_refl _)).2
  have hpush : Adds (Block.StopsBy r.next) r
      { r.push (r.leaf.close (.flushed r.stop r.next)) with
        leaf := .none, interrupting := false } :=
    hclose.congr rfl
  obtain ⟨bs, hbs, hall⟩ := hpush.trans (adds_closeFrames
    (fun c span children code hcode => by cases hcode) _
      (r.leaf.endAt (.flushed r.stop r.next)) count)
  intro b hb
  have hb' : b ∈ bs ++ r.blocks := hbs ▸ hb
  rcases List.mem_append.mp hb' with hb | hb
  · exact hall b hb
  · exact h.blocks b hb

theorem InOrder.step_lineAt {v : Reader} (h : v.InOrder) {place : Nat} (hnext : v.next ≤ place)
    (p : RawLine) :
    (v.step (p.lineAt place)).InOrder ∧ (v.step (p.lineAt place)).next = place + p.size := by
  have hshown := Line.Shows.lineAt place p
  constructor
  · refine h.step hshown.placed ?_ ?_
    · rw [hshown.stop]
      omega
    · rw [hshown.stop, hshown.next, RawLine.size, RawLine.all, Text.byteLength_append]
      omega
  · rw [step_eq]
    exact hshown.next

/-- The line behind a line end is the first one that may hold code. -/
theorem inOrder_fresh_step (n : Nat) (p : RawLine) :
    ((fresh true n).step (p.lineAt n)).InOrder ∧
      ((fresh true n).step (p.lineAt n)).next = n + p.size := by
  have hfresh : (fresh true n).InOrder :=
    ⟨Nat.zero_le n, fun _ _ _ _ _ h => Leaf.noConfusion h, fun _ hb => absurd hb List.not_mem_nil⟩
  exact hfresh.step_lineAt (Nat.le_refl n) p

/-- A paragraph at the end of a text. -/
theorem InText.finish_eq {r : Reader} {lead : Option Line} {lines : List Line}
    (h : r.InText lead lines) : r.finish = r.blocks.reverse ++ Content.blocks lead lines := by
  obtain ⟨head, hleaf⟩ := h.leaf
  have hclose : r.leaf.close (.flushed r.stop r.next) = Content.blocks lead lines := by
    rw [hleaf]
    rfl
  rw [finish, h.frames]
  unfold flush
  dsimp only
  rw [hclose, h.push_eq]
  simp [closeFrames]

end Reader

/-! ## Lines of text at other places -/

theorem StartsText.of_shifted {behind : Bool} {d : Nat} {gs : List Glyph}
    (h : StartsText behind (shifted d gs)) : StartsText behind gs := by
  refine ⟨?_, fun i hi => ?_, fun i hi => ?_, ?_, ?_, ?_, ?_⟩
  · have hfirst := h.first
    rw [head?_shifted, Option.map_map] at hfirst
    exact hfirst
  · have hcontainer := h.container i hi
    rwa [Container.open?_shifted, Option.map_eq_none_iff] at hcontainer
  · have hhtml := h.html i hi
    rwa [Html.Block.open?_shifted] at hhtml
  · have hfence := h.fence
    rwa [FenceOpening.read?_shifted, Option.map_eq_none_iff] at hfence
  · have hheading := h.heading
    rwa [Heading.text?_shifted, Option.map_eq_none_iff] at hheading
  · have hunderline := h.underline
    rwa [isUnderline_shifted] at hunderline
  · have hbreak := h.thematicBreak
    rwa [isThematicBreak_shifted] at hbreak

theorem StartsText.shifted {behind : Bool} {gs : List Glyph} (h : StartsText behind gs) (d : Nat) :
    StartsText behind (shifted d gs) := by
  refine ⟨?_, fun i hi => ?_, fun i hi => ?_, ?_, ?_, ?_, ?_⟩
  · rw [head?_shifted, Option.map_map]
    exact h.first
  · rw [Container.open?_shifted, h.container i hi]
    rfl
  · rw [Html.Block.open?_shifted, h.html i hi]
  · rw [FenceOpening.read?_shifted, h.fence]
    rfl
  · rw [Heading.text?_shifted, h.heading]
    rfl
  · rw [isUnderline_shifted, h.underline]
  · rw [isThematicBreak_shifted, h.thematicBreak]

theorem Table.drawsRule_shifted (d : Nat) (gs : List Glyph) :
    drawsRule (Markdown.shifted d gs) = drawsRule gs := by
  simp only [drawsRule, Glyph.cutSpaces_shifted, length_shifted, rulesFrom_shifted]

/-- A line that shows a raw line is text when the raw line is. -/
theorem Line.Shows.startsText {behind : Bool} {place : Nat} {r : RawLine} {l : Line}
    (h : l.Shows place r) (htext : StartsText behind (glyphsAt 0 0 r.text)) :
    StartsText behind l.glyphs := by
  have hshown := htext.shifted place
  rw [← h.glyphs_eq] at hshown
  exact hshown.of_shifted

theorem Line.Shows.drawsRule {place : Nat} {r : RawLine} {l : Line} (h : l.Shows place r) :
    Table.drawsRule l.glyphs = Table.drawsRule (glyphsAt 0 0 r.text) := by
  rw [← Table.drawsRule_shifted 0, h.glyphs_eq, Table.drawsRule_shifted]

theorem Line.Shows.isUnderline {place : Nat} {r : RawLine} {l : Line} (h : l.Shows place r) :
    isUnderline l.glyphs = isUnderline (glyphsAt 0 0 r.text) := by
  rw [← isUnderline_shifted 0, h.glyphs_eq, isUnderline_shifted]

theorem Line.Shows.ends_iff {interrupting : Bool} {place : Nat} {r : RawLine} {l : Line}
    (h : l.Shows place r) : Reader.Ends interrupting l ↔ Reader.Ends interrupting (r.lineAt 0) := by
  rw [← Reader.ends_shift 0, h.shift_eq (Nat.zero_add place).symm, Reader.ends_shift]

theorem Line.Shows.goesOn_iff {interrupting : Bool} {head : Option Nat} {place : Nat} {r : RawLine}
    {l : Line} (h : l.Shows place r) :
    Reader.GoesOn interrupting l head ↔ Reader.GoesOn interrupting (r.lineAt 0) head := by
  rw [← Reader.goesOn_shift 0, h.shift_eq (Nat.zero_add place).symm, Reader.goesOn_shift]

theorem Line.Shows.open?_iff {interrupting : Bool} {place : Nat} {r : RawLine} {l : Line}
    (h : l.Shows place r) : Container.open? interrupting l.glyphs = none ↔
      Container.open? interrupting (glyphsAt 0 0 r.text) = none := by
  have hsame := congrArg (Container.open? interrupting) h.glyphs_eq
  rw [Container.open?_shifted, Container.open?_shifted] at hsame
  rw [← Option.map_eq_none_iff, hsame, Option.map_eq_none_iff]

theorem Line.Shows.isRule {cells place : Nat} {r : RawLine} {l : Line} (h : l.Shows place r) :
    Table.isRule cells l.glyphs = Table.isRule cells (glyphsAt 0 0 r.text) := by
  rw [← Table.isRule_shifted 0, h.glyphs_eq, Table.isRule_shifted]

end LiveDoc.Markdown
