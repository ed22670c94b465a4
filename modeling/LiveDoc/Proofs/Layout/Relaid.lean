import LiveDoc.Proofs.Layout.Edited
import LiveDoc.Proofs.Markdown.Opened
import LiveDoc.Proofs.Tree.Kinds

/-!
# Reading a text whose paragraphs were laid out anew

The lines of a text and of what became of it are read side by side. As long as nothing is edited the
readers follow the same third one, which has read the lines behind the last edit (`Aligned`). A
paragraph that was edited is read on its own in both texts, and behind it the readers are aligned
again, since a line that ends a paragraph does not look at what the paragraph says.
-/

namespace LiveDoc.Layout

open Markdown
open Text (byteLength byteLength_append)

/-! ## New texts of paragraphs -/

/-- The new text of a paragraph starts one, in every place where the old text may have stood. -/
structure StartsParagraph (old content : List Char) : Prop where
  /-- The old text does not belong to a heading above. -/
  underline : ∀ r ∈ (rawLines old).head?, isUnderline (glyphsAt 0 0 r.text) = false
  mark : content.head? ≠ some byteOrderMark
  first : ∃ r ∈ (rawLines content).head?, StartsText false (glyphsAt 0 0 r.text)
  definition : Target.definition? (Content.glyphs (linesAt 0 (rawLines content)).reverse) = none

/-- The new text of a paragraph reads as a paragraph. -/
structure StaysText (old content : List Char) : Prop extends StartsParagraph old content where
  more : ∀ r ∈ (rawLines content).tail,
    StartsText true (glyphsAt 0 0 r.text) ∧ Table.drawsRule (glyphsAt 0 0 r.text) = false
  last : ∀ r ∈ (rawLines content).getLast?, r.ending = []

/-- The new text of a paragraph reads as a paragraph in the place of the old one. Where a table is
open, the first character tells text from a row. -/
structure Relaid (old content : List Char) : Prop extends StaysText old content where
  head : ∀ c ∈ old.head?, isMarker c = true → content.head? = some c

instance (old content : List Char) : Decidable (StartsParagraph old content) :=
  decidable_of_iff
    ((∀ r ∈ (rawLines old).head?, isUnderline (glyphsAt 0 0 r.text) = false) ∧
      content.head? ≠ some byteOrderMark ∧
      (∃ r ∈ (rawLines content).head?, StartsText false (glyphsAt 0 0 r.text)) ∧
      Target.definition? (Content.glyphs (linesAt 0 (rawLines content)).reverse) = none)
    ⟨fun ⟨h₁, h₂, h₃, h₄⟩ => ⟨h₁, h₂, h₃, h₄⟩, fun ⟨h₁, h₂, h₃, h₄⟩ => ⟨h₁, h₂, h₃, h₄⟩⟩

instance (old content : List Char) : Decidable (StaysText old content) :=
  decidable_of_iff
    (StartsParagraph old content ∧
      (∀ r ∈ (rawLines content).tail,
        StartsText true (glyphsAt 0 0 r.text) ∧ Table.drawsRule (glyphsAt 0 0 r.text) = false) ∧
      ∀ r ∈ (rawLines content).getLast?, r.ending = [])
    ⟨fun ⟨h₁, h₂, h₃⟩ => ⟨h₁, h₂, h₃⟩, fun ⟨h₁, h₂, h₃⟩ => ⟨h₁, h₂, h₃⟩⟩

/-- Edits of blocks: those of paragraphs, over their own span. -/
structure Edits (f : Block → Option Edit) : Prop where
  other : ∀ b, b.isParagraph = false → f b = none
  span : ∀ span gs e, f (.text .paragraph span gs) = some e → e.span = span

/-- The edits of the blocks of a reader. -/
def editsOf (f : Block → Option Edit) (r : Reader) : List Edit := r.blocks.reverse.filterMap f

variable {f : Block → Option Edit} {source target : List Char} {r r' : Reader}

theorem editsOf_eq_of_adds {after : Reader} (h : Reader.Adds (fun b => f b = none) r after) :
    editsOf f after = editsOf f r := by
  obtain ⟨bs, hbs, hall⟩ := h
  have hnone : bs.reverse.filterMap f = [] :=
    List.filterMap_eq_nil_iff.mpr fun b hb => hall b (List.mem_reverse.mp hb)
  rw [editsOf, hbs, List.reverse_append, List.filterMap_append, hnone, List.append_nil, editsOf]

/-! ## Side by side -/

/-- Two readers have read a text and what the edits so far have made of it. Both follow a reader of
what comes behind the last edit. -/
inductive Aligned (f : Block → Option Edit) (source target : List Char) (r r' : Reader) : Prop
  | intro {S T x : List Char} {v : Reader} {front back : List Mark} :
    source = S ++ x → target = T ++ x →
    Reader.Follows (byteLength S) front v r → Reader.Follows (byteLength T) back v r' →
    v.InOrder → v.next ≤ byteLength x → SameKinds S front T back → Edited S T (editsOf f r) →
    Aligned f source target r r'

namespace Aligned

theorem edited (h : Aligned f source target r r') : Edited source target (editsOf f r) := by
  obtain ⟨hsource, htarget, _, _, _, _, _, hedited⟩ := h
  rw [hsource, htarget]
  exact hedited.keep _

theorem ready_iff (h : Aligned f source target r r') (c : Char) : r'.Ready c ↔ r.Ready c := by
  obtain ⟨_, _, hr, hr', _, _, _, _⟩ := h
  rw [hr.ready_iff, hr'.ready_iff]

/-- A line that ends no paragraph with an edit. -/
theorem step (h : Aligned f source target r r') {p : RawLine} {l l' : Line}
    (hl : l.Shows (byteLength source) p) (hl' : l'.Shows (byteLength target) p)
    (hadds : Reader.Adds (fun b => f b = none) r (r.step l)) :
    Aligned f (source ++ p.all) (target ++ p.all) (r.step l) (r'.step l') := by
  obtain @⟨S, T, x, v, front, back, rfl, rfl, hr, hr', horder, hnext, hkinds, hedited⟩ := h
  have hshift : l.shift 0 = (p.lineAt (byteLength x)).shift (byteLength S) :=
    hl.shift_eq (by rw [byteLength_append, Nat.add_comm])
  have hshift' : l'.shift 0 = (p.lineAt (byteLength x)).shift (byteLength T) :=
    hl'.shift_eq (by rw [byteLength_append, Nat.add_comm])
  obtain ⟨hafter, hplace⟩ := horder.step_lineAt hnext p
  refine .intro (List.append_assoc S x p.all) (List.append_assoc T x p.all) (hr.step hshift)
    (hr'.step hshift') hafter ?_ hkinds (by rwa [editsOf_eq_of_adds hadds])
  rw [hplace, byteLength_append, RawLine.size]

/-- Everything in front of a paragraph is of the same kinds. -/
theorem cut (h : Aligned f source target r r') :
    SameKinds source (marks r.cut.blocks) target (marks r'.cut.blocks) := by
  obtain @⟨S, T, x, v, front, back, rfl, rfl, hr, hr', horder, hnext, hkinds, hedited⟩ := h
  rw [hr.cut, hr'.cut]
  refine hkinds.append fun m hm span hspan => ?_
  obtain ⟨b, hb, rfl⟩ := List.mem_map.mp hm
  exact Nat.le_trans (horder.cut b hb span hspan) hnext

end Aligned

/-! ## A paragraph and its new text -/

/-- The lines of the new text of a paragraph, with the line end that the old one had. -/
structure NewLines (content ending : List Char) (first : RawLine) (more : List RawLine) : Prop where
  flat : flat (first :: more) = content ++ ending
  wellFormed : WellFormed (first :: more)
  last : (first :: more).getLast?.map RawLine.ending = some ending
  head : first.text.head? = content.head?
  mark : content.head? ≠ some byteOrderMark
  start : StartsText false (glyphsAt 0 0 first.text)
  goesOn : ∀ r ∈ more,
    StartsText true (glyphsAt 0 0 r.text) ∧ Table.drawsRule (glyphsAt 0 0 r.text) = false
  definition : Target.definition? (Content.glyphs (linesAt 0 (first :: more)).reverse) = none

/-- A line that does not break has a text. -/
theorem ne_nil_of_startsText {behind : Bool} {text : List Char}
    (h : StartsText behind (glyphsAt 0 0 text)) : text ≠ [] := by
  rintro rfl
  cases h.first

theorem Relaid.exists_newLines {old content ending : List Char} (h : Relaid old content)
    (hending : ending = [] ∨ Text.IsEnding ending ∨ ending = ['\r']) :
    ∃ first more, NewLines content ending first more := by
  have hwf := wellFormed_rawLines content
  have hflat := flat_rawLines content
  obtain ⟨r₁, hr₁, htext⟩ := h.first
  have hmore := h.more
  have hdefinition := h.definition
  have hhead : r₁.text.head? = content.head? := by
    rw [← hflat]
    obtain ⟨rest, hrest⟩ := List.head?_eq_some_iff.mp hr₁
    obtain ⟨c, cs, hc⟩ := List.exists_cons_of_ne_nil (ne_nil_of_startsText htext)
    rw [hrest, flat_cons, hc]
    rfl
  cases hlast : (rawLines content).getLast? with
  | none => rw [List.getLast?_eq_none_iff.mp hlast] at hr₁; cases hr₁
  | some last =>
    obtain ⟨front, hfront⟩ := List.getLast?_eq_some_iff.mp hlast
    obtain ⟨text, closing⟩ := last
    obtain rfl : closing = [] := h.last _ hlast
    rw [hfront] at hwf hflat hr₁ hmore hdefinition
    have hne : text ≠ [] := by
      have hall := (hwf.sound ⟨text, []⟩ (by simp)).ne_nil
      rwa [RawLine.all, List.append_nil] at hall
    have hset := hwf.set_ending hne hending
    have hglyphs : Content.glyphs (linesAt 0 (front ++ [⟨text, ending⟩])).reverse =
        Content.glyphs (linesAt 0 (front ++ [⟨text, []⟩])).reverse := by
      simp [linesAt_append, linesAt, Content.glyphs, RawLine.lineAt]
    have hflat' : flat (front ++ [⟨text, ending⟩]) = content ++ ending := by
      rw [← hflat]
      simp
    rw [← hglyphs] at hdefinition
    cases front with
    | nil =>
      obtain rfl : ⟨text, []⟩ = r₁ := Option.some.inj hr₁
      exact ⟨⟨text, ending⟩, [], hflat', hset, rfl, hhead, h.mark, htext, by simp, hdefinition⟩
    | cons r front =>
      obtain rfl : r = r₁ := Option.some.inj hr₁
      rw [List.cons_append] at hflat' hset hdefinition
      refine ⟨r, front ++ [RawLine.mk text ending], hflat', hset, ?_, hhead, h.mark, htext, ?_,
        hdefinition⟩
      · simp [List.getLast?_cons]
      · intro s hs
        rcases List.mem_append.mp hs with hs | hs
        · exact hmore s (List.mem_append_left _ hs)
        · rw [List.mem_singleton.mp hs]
          exact hmore ⟨text, []⟩ (List.mem_append_right _ List.mem_cons_self)

/-- A paragraph was read to the end of its last line, and in the other text what became of it. -/
structure Exchanged (f : Block → Option Edit) (source target ending : List Char) (r r' : Reader)
    (lines lines' : List Line) : Prop where
  inText : r.InText none lines
  inText' : r'.InText none lines'
  interrupting : r.interrupting = true
  interrupting' : r'.interrupting = true
  stop : r.stop = byteLength source
  stop' : r'.stop = byteLength target
  next : r.next = r.stop + byteLength ending
  next' : r'.next = r'.stop + byteLength ending
  kinds : SameKinds source (marks ((Content.blocks none lines).reverse ++ r.blocks)) target
    (marks ((Content.blocks none lines').reverse ++ r'.blocks))
  edited : Edited source target ((r.blocks.reverse ++ Content.blocks none lines).filterMap f)

/-- The reading of lines comes to the end of the last one. -/
theorem stop_foldl {place : Nat} {rs : List RawLine} {lines : List Line} {ending : List Char}
    (h : Shows place rs lines) (hlast : rs.getLast?.map RawLine.ending = some ending) (r : Reader) :
    (lines.foldl Reader.step r).next = place + byteLength (flat rs) ∧
      (lines.foldl Reader.step r).next = (lines.foldl Reader.step r).stop + byteLength ending := by
  rcases List.eq_nil_or_concat lines with rfl | ⟨front, l, rfl⟩
  · obtain rfl : rs = [] := h.nil_iff.mp rfl
    cases hlast
  · rw [List.concat_eq_append] at h ⊢
    obtain ⟨ps, p, rfl, -, hl⟩ := Shows.append_singleton_iff.mp h
    obtain rfl : p.ending = ending := by simpa using hlast
    have hnext : ((front ++ [l]).foldl Reader.step r).next = l.next := by
      rw [List.foldl_append, List.foldl_cons, List.foldl_nil, Reader.step_eq]
    have hstop : ((front ++ [l]).foldl Reader.step r).stop = l.stop := by
      rw [List.foldl_append, List.foldl_cons, List.foldl_nil, Reader.step_eq]
    rw [hnext, hstop, hl.next, hl.stop, flat_append, byteLength_append, flat_cons, flat_nil,
      List.append_nil, RawLine.size, RawLine.all, byteLength_append]
    omega

/-- What was a paragraph is one with its new text. -/
theorem NewLines.read {content ending : List Char} {first : RawLine} {more : List RawLine}
    (h : NewLines content ending first more) {r₀ : Reader} {c : Char} (hready : r₀.Ready c)
    (hhead : content.head? = some c) (place : Nat) :
    ∃ gs, ((linesAt place (first :: more)).foldl Reader.step r₀).InText none
        (linesAt place (first :: more)).reverse ∧
      ((linesAt place (first :: more)).foldl Reader.step r₀).blocks = r₀.cut.blocks ∧
      ((linesAt place (first :: more)).foldl Reader.step r₀).interrupting = true ∧
      Content.blocks none (linesAt place (first :: more)).reverse =
        [Content.textBlock .paragraph gs] := by
  have hshows := Shows.linesAt place (first :: more)
  obtain ⟨_, _, hcons, hfirst, hmore⟩ := Shows.cons_iff.mp hshows
  obtain ⟨rfl, rfl⟩ := List.cons.inj hcons
  have hbehind : ∀ k ∈ linesAt (place + first.size) more,
      StartsText true k.glyphs ∧ Table.drawsRule k.glyphs = false := by
    intro k hk
    obtain ⟨r, hr, place', hshown⟩ := hmore.exists_of_mem hk
    obtain ⟨htext, hrule⟩ := h.goesOn r hr
    exact ⟨hshown.startsText htext, by rw [hshown.drawsRule, hrule]⟩
  have hchar : (first.lineAt place).glyphs.head?.map (·.char) = some c := by
    rw [hfirst.head?, h.head, hhead]
  obtain ⟨hin, hblocks, hinterrupting⟩ :=
    hready.foldl (hfirst.startsText h.start) hchar hshows.placed hbehind
  refine ⟨_, hin, hblocks, hinterrupting, Content.blocks_of_definition?_eq_none ?_ ?_⟩
  · have hmoved : linesAt place (first :: more) =
        (linesAt 0 (first :: more)).map (Line.shift place) := by
      rw [← linesAt_shift, Nat.zero_add]
    rw [hmoved, ← List.map_reverse, Content.glyphs_shift, Target.definition?_shifted, h.definition]
    rfl
  · have hne : ∀ k ∈ linesAt place (first :: more), k.glyphs ≠ [] := by
      intro k hk hnil
      rcases List.mem_cons.mp hk with rfl | hk
      · have := (hfirst.startsText h.start).first
        rw [hnil] at this
        cases this
      · have := (hbehind k hk).1.first
        rw [hnil] at this
        cases this
    obtain ⟨last, earlier, hreverse⟩ := List.exists_cons_of_ne_nil
      (show (linesAt place (first :: more)).reverse ≠ [] by simp [linesAt])
    rw [hreverse]
    refine Content.glyphs_ne_nil (hne last ?_)
    rw [← List.mem_reverse, hreverse]
    exact List.mem_cons_self

/-- **A paragraph that was edited** is read on its own in both texts. -/
theorem Aligned.exchange {r₀ r₀' : Reader} (hf : Edits f) (h : Aligned f source target r₀ r₀')
    {Ps : List RawLine} {ls : List Line} (hshows : Shows (byteLength source) Ps ls.reverse)
    (hwf : WellFormed Ps) (hopened : Reader.Opened r₀ ls r) {lead : Option Line}
    {lines : List Line} (hholds : Reader.Holds r₀ ls lead lines r)
    (hdefs : ∀ b ∈ Content.blocks lead lines, ¬ b.Defines) {old ending : List Char}
    (hflat : flat Ps = old ++ ending) (hlast : Ps.getLast?.map RawLine.ending = some ending)
    {b : Block} (hb : b ∈ Content.blocks lead lines) {e : Edit} (he : f b = some e)
    (hrelaid : e.span = ⟨byteLength source, byteLength (source ++ old)⟩ → Relaid old e.content) :
    ∃ first more, lead = none ∧ NewLines e.content ending first more ∧
      Exchanged f (source ++ old) (target ++ e.content) ending r
        ((linesAt (byteLength target) (first :: more)).foldl Reader.step r₀') lines
        (linesAt (byteLength target) (first :: more)).reverse := by
  obtain ⟨last, earlier, rfl, hstop, -⟩ := hopened.exists_last
  obtain ⟨front, text, rfl, rfl⟩ := exists_front hlast hflat
  obtain ⟨first, hfirst, hhow⟩ := hholds.first
  have hnext := stop_foldl hshows hlast r₀
  rw [← hopened.eq_foldl, hflat, byteLength_append] at hnext
  have hends : r.stop = byteLength (source ++ flat (front ++ [⟨text, []⟩])) := by
    rw [byteLength_append]
    omega
  -- the first line, and the old text
  obtain ⟨rest, hrest⟩ : ∃ rest, (last :: earlier).reverse = first :: rest := by
    have hreverse := hfirst
    rw [← List.head?_reverse] at hreverse
    exact List.head?_eq_some_iff.mp hreverse
  have hshown := hshows
  rw [hrest] at hshown
  obtain ⟨p, ps, hps, hp, -⟩ := Shows.cons_iff.mp hshown
  -- the old paragraph, and its edit
  have hone := Content.blocks_eq hdefs (by
    rw [hholds.lines]
    exact Content.glyphs_ne_nil (hholds.ne_nil last List.mem_cons_self))
  rw [hholds.lines] at hone
  rw [hone] at hb
  have hsameBlock := List.mem_singleton.mp hb
  subst hsameBlock
  have hspan :
      e.span = ⟨byteLength source, byteLength (source ++ flat (front ++ [⟨text, []⟩]))⟩ := by
    rw [hf.span _ _ e he, Content.spanOf_glyphs hfirst
      (hshows.placed first (by rw [hrest]; exact List.mem_cons_self))
      (hholds.ne_nil first (List.mem_of_getLast? hfirst)) (hholds.ne_nil last List.mem_cons_self),
      hp.start, ← hstop, hends]
  replace hrelaid := hrelaid hspan
  have htext : text ≠ [] := by
    rintro rfl
    have hlines := hshows
    rw [List.reverse_cons] at hlines
    obtain ⟨_, q, hq, -, hshown⟩ := Shows.append_singleton_iff.mp hlines
    obtain rfl : ⟨[], ending⟩ = q := by simpa using (List.append_inj' hq rfl).2
    have hhead := hshown.head?
    rw [List.head?_nil, Option.map_eq_none_iff, List.head?_eq_none_iff] at hhead
    exact hholds.ne_nil last List.mem_cons_self hhead
  have hraw : rawLines (flat (front ++ [⟨text, []⟩])) = front ++ [⟨text, []⟩] :=
    rawLines_flat (hwf.set_ending htext (Or.inl rfl))
  have hheadLine : ∃ q : RawLine, q ∈ (front ++ [RawLine.mk text []]).head? ∧ q.text = p.text := by
    cases front with
    | nil =>
      obtain ⟨rfl, -⟩ := List.cons.inj hps
      exact ⟨⟨text, []⟩, rfl, rfl⟩
    | cons q more =>
      obtain ⟨rfl, -⟩ := List.cons.inj hps
      exact ⟨q, rfl, rfl⟩
  obtain ⟨q, hq, hqtext⟩ := hheadLine
  have hunderline : isUnderline first.glyphs = false := by
    rw [hp.isUnderline, ← hqtext]
    exact hrelaid.underline q (by rw [hraw]; exact hq)
  obtain ⟨rfl, hinterrupting, g, hg, hready⟩ := hhow.resolve_left (by simp [hunderline])
  have hpg : p.text.head? = some g.char := by
    rw [← hp.head?, hg]
    rfl
  have hold : (flat (front ++ [⟨text, []⟩])).head? = some g.char := by
    obtain ⟨more, hmore⟩ := List.head?_eq_some_iff.mp hq
    obtain ⟨cs, hcs⟩ := List.head?_eq_some_iff.mp hpg
    rw [hmore, flat_cons, hqtext, hcs]
    rfl
  -- the new text
  have hending : ending = [] ∨ Text.IsEnding ending ∨ ending = ['\r'] :=
    (hwf.sound ⟨text, ending⟩ (by simp)).ending
  obtain ⟨new, more, hnew⟩ := hrelaid.exists_newLines hending
  obtain ⟨c, hc⟩ : ∃ c, e.content.head? = some c := by
    rw [← hnew.head]
    obtain ⟨c, cs, hcs⟩ := List.exists_cons_of_ne_nil (ne_nil_of_startsText hnew.start)
    exact ⟨c, by rw [hcs]; rfl⟩
  have hready' : r₀'.Ready c := (h.ready_iff c).mpr (hready.congr fun hmarker => by
    have hsame := hrelaid.head g.char hold hmarker
    rw [hc] at hsame
    obtain rfl : c = g.char := Option.some.inj hsame
    exact hmarker)
  obtain ⟨gs, hin, hblocks, hinterrupting', hparagraph⟩ := hnew.read hready' hc (byteLength target)
  have hnext' := stop_foldl (Shows.linesAt (byteLength target) (new :: more)) hnew.last r₀'
  rw [hnew.flat, byteLength_append] at hnext'
  have hlines : lines = last :: earlier := by
    have hboth := hholds.lines
    rwa [Option.toList_none, List.append_nil] at hboth
  subst hlines
  have hends' : ((linesAt (byteLength target) (new :: more)).foldl Reader.step r₀').stop =
      byteLength (target ++ e.content) := by
    rw [byteLength_append]
    omega
  refine ⟨new, more, rfl, hnew, ?_⟩
  refine ⟨hholds.inText, hin, hinterrupting, hinterrupting', hends, hends', hnext.2, hnext'.2, ?_,
    ?_⟩
  · rw [hone, hparagraph, hblocks, hholds.blocks]
    exact h.cut.cons _ _ .paragraph
  · have hsame : editsOf f r = editsOf f r₀ := by
      obtain ⟨bs, hbs, hall⟩ := hready.adds_cut
      exact editsOf_eq_of_adds ⟨bs, hholds.blocks.trans hbs, fun b hb => hf.other b (hall b hb)⟩
    have hedited := h.edited.edit (by simp [htext]) hspan
    rw [hone, List.filterMap_append, ← editsOf, hsame]
    simpa [he] using hedited

/-! ## Behind a paragraph -/

namespace Exchanged

variable {ending : List Char} {lines lines' : List Line}

/-- The blocks behind the paragraph are its own, and those that come from the next line. -/
theorem editsOf_eq (h : Exchanged f source target ending r r' lines lines') {after : Reader}
    (hadds : Reader.Adds (fun b => f b = none)
      { r with blocks := (Content.blocks none lines).reverse ++ r.blocks } after) :
    Edited source target (editsOf f after) := by
  rw [editsOf_eq_of_adds hadds, editsOf]
  dsimp only
  rw [List.reverse_append, List.reverse_reverse]
  exact h.edited

/-- A line ends the paragraph. -/
theorem ends (h : Exchanged f source target ending r r' lines lines') (hf : Edits f) {p : RawLine}
    {l l' : Line} (hl : l.Shows (byteLength (source ++ ending)) p)
    (hl' : l'.Shows (byteLength (target ++ ending)) p) (hends : Reader.Ends true l) :
    Aligned f (source ++ ending ++ p.all) (target ++ ending ++ p.all) (r.step l) (r'.step l') := by
  have hends' : Reader.Ends true l' := hl'.ends_iff.mpr (hl.ends_iff.mp hends)
  have hr := h.inText.follows_ends hl.placed h.next
    (hl.shift_eq (by rw [byteLength_append, h.stop, Nat.add_comm])) (h.interrupting ▸ hends)
  have hr' := h.inText'.follows_ends hl'.placed h.next'
    (hl'.shift_eq (by rw [byteLength_append, h.stop', Nat.add_comm])) (h.interrupting' ▸ hends')
  rw [h.interrupting, h.stop] at hr
  rw [h.interrupting', h.stop'] at hr'
  obtain ⟨horder, hnext⟩ := Reader.inOrder_fresh_step (byteLength ending) p
  refine .intro (List.append_assoc source ending p.all) (List.append_assoc target ending p.all)
    hr hr' horder ?_ h.kinds (h.editsOf_eq ?_)
  · rw [hnext, byteLength_append]
    exact Nat.le_refl _
  · obtain ⟨bs, hbs, hall⟩ :=
      Reader.adds_no_paragraph (r := r.clear) hl.placed fun h => by cases h.2
    refine ⟨bs, ?_, fun b hb => hf.other b (hall b hb)⟩
    rw [h.inText.step_ends hl.placed (h.interrupting ▸ hends), Reader.behind, hbs]
    simp [Reader.clear]

/-- The next line is the head of a table, as the one behind it shows. -/
theorem table (h : Exchanged f source target ending r r' lines lines') {p q : RawLine}
    {k k' l l' : Line} (hk : k.Shows (byteLength (source ++ ending)) p)
    (hk' : k'.Shows (byteLength (target ++ ending)) p)
    (hl : l.Shows (byteLength (source ++ ending ++ p.all)) q)
    (hl' : l'.Shows (byteLength (target ++ ending ++ p.all)) q) {cells : Nat}
    (hgoes : Reader.GoesOn true k (some cells)) (hhead : Table.drawsRule k.glyphs = false)
    (hopen : Container.open? true l.glyphs = none) (hrule : Table.isRule cells l.glyphs = true)
    (hblocks : ((r.step k).step l).blocks = (Content.blocks none lines).reverse ++ r.blocks) :
    Aligned f (source ++ ending ++ p.all ++ q.all) (target ++ ending ++ p.all ++ q.all)
      ((r.step k).step l) ((r'.step k').step l') := by
  have hhead' : Table.drawsRule k'.glyphs = false := by rw [hk'.drawsRule, ← hk.drawsRule, hhead]
  have hplace : ∀ text : List Char, byteLength (text ++ ending ++ p.all) =
      byteLength ending + p.size + byteLength text := by
    intro text
    rw [byteLength_append, byteLength_append, RawLine.size]
    omega
  have hr := h.inText.follows_table hk.placed hl.placed h.interrupting h.next
    (hk.shift_eq (by rw [byteLength_append, h.stop, Nat.add_comm]))
    (hl.shift_eq (by rw [hplace, h.stop])) hgoes
    (h.inText.continue?_eq_none fun n => Table.isRule_eq_false hhead n) hopen hrule
  have hr' := h.inText'.follows_table hk'.placed hl'.placed h.interrupting' h.next'
    (hk'.shift_eq (by rw [byteLength_append, h.stop', Nat.add_comm]))
    (hl'.shift_eq (by rw [hplace, h.stop'])) (hk'.goesOn_iff.mpr (hk.goesOn_iff.mp hgoes))
    (h.inText'.continue?_eq_none fun n => Table.isRule_eq_false hhead' n)
    (hl'.open?_iff.mpr (hl.open?_iff.mp hopen)) (by rw [hl'.isRule, ← hl.isRule, hrule])
  rw [h.stop] at hr
  rw [h.stop'] at hr'
  obtain ⟨horder, hnext⟩ := Reader.inOrder_fresh_step (byteLength ending) p
  obtain ⟨horder', hnext'⟩ := horder.step_lineAt (Nat.le_of_eq hnext) q
  refine .intro (x := ending ++ p.all ++ q.all) (by simp) (by simp) hr hr' horder' ?_ h.kinds
    (h.editsOf_eq ⟨[], hblocks, fun b hb => absurd hb List.not_mem_nil⟩)
  rw [hnext', byteLength_append, byteLength_append, RawLine.size, RawLine.size]

/-- The text ends behind the paragraph. -/
theorem finish (h : Exchanged f source target ending r r' lines lines') :
    (marks r.finish).map (Mark.kind (source ++ ending)) =
        (marks r'.finish).map (Mark.kind (target ++ ending)) ∧
      Edited (source ++ ending) (target ++ ending) (r.finish.filterMap f) := by
  rw [h.inText.finish_eq, h.inText'.finish_eq]
  have hkinds := congrArg List.reverse (h.kinds ending ending)
  constructor
  · rw [← List.map_reverse, ← List.map_reverse, ← marks_reverse, ← marks_reverse,
      List.reverse_append, List.reverse_append, List.reverse_reverse,
        List.reverse_reverse] at hkinds
    exact hkinds
  · exact h.edited.keep ending

end Exchanged

/-! ## The whole text -/

/-- No paragraph with an edit stands right behind a definition. -/
def EditsApart (f : Block → Option Edit) (bs : List Block) : Prop :=
  bs.IsChain fun b b' => b.Defines → f b' = none

/-- The first lines of a text as they are read, and what is asked for of the edits. -/
structure Input (f : Block → Option Edit) (whole mark : List Char) (P : List RawLine)
    (R : List Line) : Prop where
  shows : Shows (byteLength mark) P R
  wellFormed : WellFormed P
  start : mark = [] → (flat P).head? ≠ some byteOrderMark
  inside : mark ++ flat P <+: whole
  apart : EditsApart f (R.foldl Reader.step .empty).blocks.reverse
  rules : P.IsChain fun p q =>
    ¬ (Table.drawsRule (glyphsAt 0 0 p.text) = true ∧ Table.drawsRule (glyphsAt 0 0 q.text) = true)
  relaid : ∀ b ∈ (R.foldl Reader.step .empty).blocks, ∀ e, f b = some e →
    ∃ old, Text.slice whole e.span = some old ∧ Relaid old e.content

/-- Lines that can stand where those of a text do. -/
structure Written (mark : List Char) (P N : List RawLine) : Prop where
  wellFormed : WellFormed N
  ending : N.getLast?.map RawLine.ending = P.getLast?.map RawLine.ending
  start : mark = [] → (flat N).head? ≠ some byteOrderMark

/-- The lines that become of the first lines of a text. -/
structure Output (f : Block → Option Edit) (mark : List Char) (P : List RawLine) (R : List Line)
    (N : List RawLine) : Prop extends Written mark P N where
  aligned : Aligned f (mark ++ flat P) (mark ++ flat N) (R.foldl Reader.step .empty)
    ((linesAt (byteLength mark) N).foldl Reader.step .empty)

variable {whole mark : List Char} {P N : List RawLine} {R : List Line}

theorem Input.front {Q : List RawLine} {R' : List Line}
    (h : Input f whole mark (P ++ Q) (R ++ R')) (hshows : Shows (byteLength mark) P R) :
    Input f whole mark P R := by
  have hall := h.shows.placed
  obtain ⟨bs, hbs, -⟩ := Reader.adds_foldl (R := R')
    (fun l hl => hall l (List.mem_append_right _ hl)) (R.foldl Reader.step .empty)
  rw [← List.foldl_append] at hbs
  have hkept : ∀ b ∈ (R.foldl Reader.step .empty).blocks,
      b ∈ ((R ++ R').foldl Reader.step .empty).blocks := by
    intro b hb
    rw [hbs]
    exact List.mem_append_right _ hb
  refine ⟨hshows, ⟨fun r hr => h.wellFormed.sound r (List.mem_append_left _ hr),
    (List.isChain_append.mp h.wellFormed.leads).1⟩, fun hmark hhead => h.start hmark ?_,
    List.IsPrefix.trans ?_ h.inside, ?_, (List.isChain_append.mp h.rules).1,
      fun b hb => h.relaid b (hkept b hb)⟩
  · rw [flat_append, List.head?_append, hhead]
    rfl
  · rw [flat_append, ← List.append_assoc]
    exact List.prefix_append _ _
  · have hapart := h.apart
    rw [hbs, List.reverse_append] at hapart
    exact (List.isChain_append.mp hapart).1

/-- One more line is the same in both texts. -/
theorem Written.append_singleton {p : RawLine} (h : Written mark P N) (hP : WellFormed (P ++ [p]))
    (hstart : mark = [] → (flat (P ++ [p])).head? ≠ some byteOrderMark) :
    Written mark (P ++ [p]) (N ++ [p]) := by
  obtain ⟨-, -, hleads⟩ := List.isChain_append.mp hP.leads
  refine ⟨⟨?_, List.isChain_append.mpr ⟨h.wellFormed.leads, .singleton p, ?_⟩⟩, by simp, ?_⟩
  · intro r hr
    rcases List.mem_append.mp hr with hr | hr
    · exact h.wellFormed.sound r hr
    · rw [List.mem_singleton.mp hr]
      exact hP.sound p (by simp)
  · intro r hr q hq
    have hending := h.ending
    rw [Option.mem_def.mp hr] at hending
    obtain ⟨s, hs, hsame⟩ := Option.map_eq_some_iff.mp hending.symm
    have hboth := hleads s hs q hq
    unfold RawLine.Leads at hboth ⊢
    rwa [hsame] at hboth
  · intro hmark hhead
    cases hN : N with
    | nil =>
      have hending := h.ending
      rw [hN] at hending
      obtain rfl : P = [] := List.getLast?_eq_none_iff.mp (Option.map_eq_none_iff.mp hending.symm)
      subst hN
      exact hstart hmark hhead
    | cons r more =>
      subst hN
      obtain ⟨c, cs, hc⟩ :=
        List.exists_cons_of_ne_nil (h.wellFormed.sound r List.mem_cons_self).ne_nil
      rw [RawLine.all] at hc
      refine h.start hmark ?_
      simpa [hc] using hhead

/-- The readers of the new lines have come to the same line. -/
theorem foldl_linesAt_append_singleton (N : List RawLine) (p : RawLine) :
    (linesAt (byteLength mark) (N ++ [p])).foldl Reader.step .empty =
      ((linesAt (byteLength mark) N).foldl Reader.step .empty).step
        (p.lineAt (byteLength (mark ++ flat N))) := by
  rw [linesAt_append, List.foldl_append, byteLength_append]
  rfl

/-- The reading has come to the last line of a paragraph that was edited. -/
inductive Swapped (f : Block → Option Edit) (mark : List Char) (P : List RawLine) (r : Reader)
    (lead : Option Line) (lines : List Line) : Prop
  | intro {N : List RawLine} {S T ending : List Char} {lines' : List Line} :
    lead = none → Written mark P N → mark ++ flat P = S ++ ending → mark ++ flat N = T ++ ending →
    Exchanged f S T ending r ((linesAt (byteLength mark) N).foldl Reader.step .empty) lines lines' →
    Swapped f mark P r lead lines

/-- A line that looks like an underline has no edit where it stands in front of definitions. -/
theorem Input.lead_unedited (h : Input f whole mark P R) (hf : Edits f) {r₀ : Reader}
    {R₀ ls : List Line} (hsplit : R = R₀ ++ ls.reverse) {lead : Option Line} {lines : List Line}
    (hholds : Reader.Holds r₀ ls lead lines r) {l : Line} (hlead : lead = some l)
    (hrelaid : ∀ e, f (Content.textBlock .paragraph l.glyphs) = some e →
      ∃ old, Text.slice whole e.span = some old ∧ Relaid old e.content) :
    f (Content.textBlock .paragraph l.glyphs) = none := by
  cases he : f (Content.textBlock .paragraph l.glyphs) with
  | none => rfl
  | some e =>
    exfalso
    subst hsplit hlead
    obtain ⟨first, hfirst, hhow⟩ := hholds.first
    have hlast := hfirst
    rw [← hholds.lines] at hlast
    obtain rfl : l = first := by simpa using hlast
    obtain hunderline : isUnderline l.glyphs = true :=
      hhow.resolve_right fun hnone => by cases hnone.1
    have hne := hholds.ne_nil l (List.mem_of_getLast? hfirst)
    obtain ⟨rest, hrest⟩ : ∃ rest, ls.reverse = l :: rest := by
      rw [← List.head?_reverse] at hfirst
      exact List.head?_eq_some_iff.mp hfirst
    obtain ⟨P₀, Ps, rfl, hP₀, hPs⟩ := Shows.append_iff.mp h.shows
    rw [hrest] at hPs
    obtain ⟨p, ps, rfl, hp, -⟩ := Shows.cons_iff.mp hPs
    have hsound := h.wellFormed.sound p (by simp)
    have htext : p.text ≠ [] := by
      intro hnil
      have hhead := hp.head?
      rw [hnil, List.head?_nil, Option.map_eq_none_iff, List.head?_eq_none_iff] at hhead
      exact hne hhead
    have hspan : e.span =
      ⟨byteLength (mark ++ flat P₀), byteLength (mark ++ flat P₀) + byteLength p.text⟩ := by
      have hone : Glyph.spanOf l.glyphs = ⟨l.start, l.stop⟩ :=
        @Content.spanOf_glyphs l l [] rfl hp.placed hne hne
      rw [hf.span _ _ e he, hone, hp.start, hp.stop, byteLength_append]
    obtain ⟨old, hold, hnew⟩ := hrelaid e he
    obtain ⟨tail, htail⟩ := h.inside
    have hslice : Text.slice whole e.span = some p.text := by
      rw [Text.slice_eq_some_iff]
      refine ⟨mark ++ flat P₀, p.ending ++ flat ps ++ tail, ?_, by rw [hspan], by rw [hspan]⟩
      rw [← htail]
      simp
    obtain rfl := Option.some.inj (hold.symm.trans hslice)
    have hfalse := hnew.underline ⟨p.text, []⟩ (by rw [rawLines_unbroken hsound.text htext]; rfl)
    rw [← hp.isUnderline, hunderline] at hfalse
    cases hfalse

/-- In a paragraph with an edit nothing is defined. -/
theorem not_defines_of_edit (hf : Edits f) {lead : Option Line} {lines : List Line}
    (hapart : EditsApart f (Content.blocks lead lines))
    (hlead : ∀ l, lead = some l →
    Content.textBlock .paragraph l.glyphs ∈ Content.blocks lead lines →
      f (Content.textBlock .paragraph l.glyphs) = none)
    {b : Block} (hb : b ∈ Content.blocks lead lines) {e : Edit} (he : f b = some e) :
    ∀ b ∈ Content.blocks lead lines, ¬ b.Defines := by
  have hunedited : ∀ b ∈ (Content.parts lead lines).1, b ∈ Content.blocks lead lines →
    f b = none := by
    intro b hb hmem
    rcases Content.mem_parts hb with hdefines | ⟨l, hl, rfl⟩
    · exact hf.other b (Block.isParagraph_of_defines hdefines)
    · exact hlead l hl hmem
  rw [Content.blocks_eq_append] at *
  by_cases hleft : (Content.parts lead lines).2 = []
  · rw [if_pos hleft, List.append_nil] at *
    rw [hunedited b hb hb] at he
    cases he
  · rw [if_neg hleft] at *
    rcases List.mem_append.mp hb with hdef | hpara
    · rw [hunedited b hdef hb] at he
      cases he
    · obtain rfl := List.mem_singleton.mp hpara
      by_cases hnil : (Content.parts lead lines).1 = []
      · rw [hnil, List.nil_append]
        intro b hb hdefines
        rw [List.mem_singleton.mp hb] at hdefines
        cases hdefines
      · obtain ⟨front, d, hsplit, hd⟩ := Content.parts_eq_append hnil
        rw [hsplit] at hapart
        have hnone := (List.isChain_append.mp hapart).2.2 d (by simp) _ rfl hd
        rw [hnone] at he
        cases he

theorem Input.swapped (h : Input f whole mark P R) (hf : Edits f) {R₀ ls : List Line}
    (hsplit : R = R₀ ++ ls.reverse)
    (hopened : Reader.Opened (R₀.foldl Reader.step .empty) ls (R.foldl Reader.step .empty))
    {lead : Option Line} {lines : List Line}
    (hholds : Reader.Holds (R₀.foldl Reader.step .empty) ls lead lines (R.foldl Reader.step .empty))
    (hapart : EditsApart f (Content.blocks lead lines))
    (hrelaid : ∀ b ∈ Content.blocks lead lines, ∀ e, f b = some e →
      ∃ old, Text.slice whole e.span = some old ∧ Relaid old e.content)
    {b : Block} (hb : b ∈ Content.blocks lead lines) {e : Edit} (he : f b = some e)
    (hbefore : ∀ P₀, Input f whole mark P₀ R₀ → ∃ N₀, Output f mark P₀ R₀ N₀) :
    Swapped f mark P (R.foldl Reader.step .empty) lead lines := by
  have hdefs := not_defines_of_edit hf hapart (fun l hl hmem =>
    h.lead_unedited hf hsplit hholds hl fun e he => hrelaid _ hmem e he) hb he
  replace hrelaid := hrelaid b hb e he
  subst hsplit
  obtain ⟨P₀, Ps, rfl, hP₀, hPs⟩ := Shows.append_iff.mp h.shows
  obtain ⟨N₀, hN₀⟩ := hbefore P₀ (h.front hP₀)
  obtain ⟨last, earlier, rfl, -, -⟩ := hopened.exists_last
  have hPs' := hPs
  rw [List.reverse_cons] at hPs'
  obtain ⟨front, q, rfl, -, -⟩ := Shows.append_singleton_iff.mp hPs'
  obtain ⟨-, hchain, hleads⟩ := List.isChain_append.mp h.wellFormed.leads
  have hflat : flat (front ++ [q]) = flat front ++ q.text ++ q.ending := by simp
  have hrelaid' : e.span = ⟨byteLength (mark ++ flat P₀),
      byteLength (mark ++ flat P₀ ++ (flat front ++ q.text))⟩ →
      Relaid (flat front ++ q.text) e.content := by
    intro hspan
    obtain ⟨old, hold, hrelaid⟩ := hrelaid
    obtain ⟨rest, hrest⟩ := h.inside
    have hslice : Text.slice whole e.span = some (flat front ++ q.text) := by
      rw [Text.slice_eq_some_iff]
      refine ⟨mark ++ flat P₀, q.ending ++ rest, ?_, by rw [hspan], ?_⟩
      · rw [← hrest]
        simp
      · rw [hspan]
        exact byteLength_append _ _
    obtain rfl := Option.some.inj (hold.symm.trans hslice)
    exact hrelaid
  rw [← byteLength_append] at hPs
  obtain ⟨first, more, hlead, hnew, hexchanged⟩ := hN₀.aligned.exchange hf hPs
    ⟨fun r hr => h.wellFormed.sound r (List.mem_append_right _ hr), hchain⟩ hopened hholds hdefs
      hflat
    (by simp) hb he hrelaid'
  obtain ⟨c, cs, hc⟩ := List.exists_cons_of_ne_nil (ne_nil_of_startsText hnew.start)
  have hcontent : e.content.head? = some c := by rw [← hnew.head, hc]; rfl
  rw [byteLength_append mark, ← List.foldl_append, ← linesAt_append] at hexchanged
  refine .intro hlead ⟨⟨?_, ?_⟩, ?_, ?_⟩ (by simp) (by simp [hnew.flat]) hexchanged
  · intro r hr
    rcases List.mem_append.mp hr with hr | hr
    · exact hN₀.wellFormed.sound r hr
    · exact hnew.wellFormed.sound r hr
  · refine List.isChain_append.mpr ⟨hN₀.wellFormed.leads, hnew.wellFormed.leads, ?_⟩
    intro r hr s hs
    obtain rfl : first = s := Option.some.inj hs
    have hending := hN₀.ending
    rw [Option.mem_def.mp hr] at hending
    obtain ⟨k, hk, hsame⟩ := Option.map_eq_some_iff.mp hending.symm
    obtain ⟨k', hk'⟩ : ∃ k', k' ∈ (front ++ [q]).head? := by
      cases front with
      | nil => exact ⟨q, rfl⟩
      | cons k' _ => exact ⟨k', rfl⟩
    refine ⟨hsame ▸ (hleads k hk k' hk').1, fun _ hbreak => ?_⟩
    have hunbroken := (hnew.wellFormed.sound first List.mem_cons_self).text c (by simp [hc])
    rw [RawLine.all, hc] at hbreak
    exact hunbroken.1 (Option.some.inj hbreak)
  · obtain ⟨k, hk, hsame⟩ := Option.map_eq_some_iff.mp hnew.last
    simp [List.getLast?_append, hk, hsame]
  · intro hmark hhead
    rw [flat_append, hnew.flat, List.head?_append] at hhead
    cases hfirst : (flat N₀).head? with
    | some d =>
      rw [hfirst] at hhead
      exact hN₀.start hmark (hfirst.trans hhead)
    | none =>
      rw [hfirst, List.head?_append, hcontent] at hhead
      exact hnew.mark (hcontent.trans hhead)

/-- The line that comes next is the same in both texts. -/
theorem Input.append_singleton {p : RawLine} {l : Line}
    (h : Input f whole mark (P ++ [p]) (R ++ [l])) (hN : Written mark P N)
    (haligned : Aligned f (mark ++ flat P ++ p.all) (mark ++ flat N ++ p.all)
      ((R.foldl Reader.step .empty).step l)
      (((linesAt (byteLength mark) N).foldl Reader.step .empty).step
        (p.lineAt (byteLength (mark ++ flat N))))) :
    Output f mark (P ++ [p]) (R ++ [l]) (N ++ [p]) := by
  refine ⟨hN.append_singleton h.wellFormed h.start, ?_⟩
  have hflat : ∀ rs : List RawLine, mark ++ flat (rs ++ [p]) = mark ++ flat rs ++ p.all := by
    intro rs
    simp [RawLine.all]
  rw [foldl_linesAt_append_singleton, List.foldl_append, List.foldl_cons, List.foldl_nil, hflat,
    hflat]
  exact haligned

theorem exists_edit {bs : List Block} (h : ¬ ∀ b ∈ bs, f b = none) :
    ∃ b ∈ bs, ∃ e, f b = some e := by
  simp only [not_forall] at h
  obtain ⟨b, hb, he⟩ := h
  exact ⟨b, hb, Option.ne_none_iff_exists'.mp he⟩

section OneLine

variable {p : RawLine} {l : Line} (h : Input f whole mark (P ++ [p]) (R ++ [l])) (hf : Edits f)
  (hP : Shows (byteLength mark) P R) (hl : l.Shows (byteLength (mark ++ flat P)) p)

include h in
theorem Input.apart_step : EditsApart f ((R.foldl Reader.step .empty).step l).blocks.reverse := by
  have hall := h.apart
  rwa [List.foldl_append] at hall

include h in
theorem Input.relaid_step : ∀ b ∈ ((R.foldl Reader.step .empty).step l).blocks, ∀ e, f b = some e →
    ∃ old, Text.slice whole e.span = some old ∧ Relaid old e.content := by
  have hall := h.relaid
  rwa [List.foldl_append] at hall

variable {R₀ ls : List Line} (hsplit : R = R₀ ++ ls.reverse)
  (hbefore : ∀ P₀, Input f whole mark P₀ R₀ → ∃ N₀, Output f mark P₀ R₀ N₀)

include h hf hP hl hsplit hbefore

/-- A line that ends a paragraph that was edited. -/
theorem Input.output_of_ends
    (hopened : Reader.Opened (R₀.foldl Reader.step .empty) ls (R.foldl Reader.step .empty))
    {lead : Option Line} {lines : List Line}
    (hholds : Reader.Holds (R₀.foldl Reader.step .empty) ls lead lines (R.foldl Reader.step .empty))
    (hends : Reader.Ends (R.foldl Reader.step .empty).interrupting l)
    {b : Block} (hb : b ∈ Content.blocks lead lines) {e : Edit} (he : f b = some e) :
    ∃ N, Output f mark (P ++ [p]) (R ++ [l]) N := by
  have hmem :
      ∀ b ∈ Content.blocks lead lines, b ∈ ((R.foldl Reader.step .empty).step l).blocks := by
    intro b hb
    rw [hholds.inText.step_ends hl.placed hends]
    exact List.mem_append_right _ (List.mem_append_left _ (List.mem_reverse.mpr hb))
  have hapart := h.apart_step
  rw [hholds.inText.step_ends hl.placed hends, Reader.behind, List.reverse_append,
    List.reverse_append, List.reverse_reverse, List.append_assoc] at hapart
  obtain ⟨rfl, hN, hS, hT, hexchanged⟩ := (h.front hP).swapped hf hsplit hopened hholds
    (List.isChain_append.mp (List.isChain_append.mp hapart).2.1).1
    (fun b hb => h.relaid_step b (hmem b hb)) hb he hbefore
  rw [hexchanged.interrupting] at hends
  refine ⟨_, h.append_singleton hN ?_⟩
  rw [hS] at hl ⊢
  rw [hT]
  exact hexchanged.ends hf hl (Line.Shows.lineAt _ p) hends

/-- A line that makes the last line of a paragraph the head of a table, while the lines in front of
it were edited. -/
theorem Input.output_of_table
    (hopened : Reader.Opened (R₀.foldl Reader.step .empty) ls (R.foldl Reader.step .empty))
    {lead : Option Line} {first : Line} {rest : List Line} {cells : Nat}
    (hopen : Container.open? (R.foldl Reader.step .empty).interrupting l.glyphs = none)
    (hrule : Table.isRule cells l.glyphs = true)
    (hleaf : (R.foldl Reader.step .empty).leaf = .content lead (first :: rest) (some cells))
    (hblocks : ((R.foldl Reader.step .empty).step l).blocks =
      (Content.blocks lead rest).reverse ++ (R.foldl Reader.step .empty).blocks)
    {b : Block} (hb : b ∈ Content.blocks lead rest) {e : Edit} (he : f b = some e) :
    ∃ N, Output f mark (P ++ [p]) (R ++ [l]) N := by
  have hmem : ∀ b ∈ Content.blocks lead rest, b ∈ ((R.foldl Reader.step .empty).step l).blocks := by
    intro b hb
    rw [hblocks]
    exact List.mem_append_left _ (List.mem_reverse.mpr hb)
  have hapart := h.apart_step
  have hrelaid := h.relaid_step
  generalize hr : R.foldl Reader.step .empty = r at *
  cases hopened with
  | first hby =>
    exfalso
    rcases hby.leaf with ⟨head, g, hfirst, -⟩ | ⟨hfirst, -⟩
    · rw [hleaf] at hfirst
      cases hfirst
      cases hb
    · rw [hleaf] at hfirst
      cases hfirst
  | @more k ls r lead' lines before head hopened hbefore' hgoes hstep =>
    rw [hstep] at hleaf
    cases hleaf
    obtain rfl : R = R₀ ++ ls.reverse ++ [first] := by
      rw [hsplit, List.reverse_cons, List.append_assoc]
    obtain ⟨P, q, rfl, hP', hk⟩ := Shows.append_singleton_iff.mp hP
    rw [← byteLength_append] at hk
    obtain rfl : r = (R₀ ++ ls.reverse).foldl Reader.step .empty := by
      rw [hopened.eq_foldl, List.foldl_append]
    obtain ⟨lead', lines', hholds⟩ := hopened.holds
    obtain ⟨before', hleaf'⟩ := hholds.inText.leaf
    rw [hbefore'] at hleaf'
    cases hleaf'
    have hmiddle := h.front hP
    rw [hblocks, List.reverse_append, List.reverse_reverse] at hapart
    obtain ⟨rfl, hN, hS, hT, hexchanged⟩ := (hmiddle.front hP').swapped hf rfl hopened hholds
      (List.isChain_append.mp hapart).2.1 (fun b hb => hrelaid b (hmem b hb)) hb he hbefore
    -- the head of the table draws no lines itself, since the line behind it does
    have hdraws : Table.drawsRule (glyphsAt 0 0 p.text) = true := by
      cases hp : Table.drawsRule (glyphsAt 0 0 p.text) with
      | true => rfl
      | false =>
        rw [← hl.drawsRule] at hp
        rw [Table.isRule_eq_false hp] at hrule
        cases hrule
    have hhead : Table.drawsRule first.glyphs = false := by
      have hrules := (List.isChain_append.mp h.rules).2.2 q (by simp) p rfl
      rw [hk.drawsRule]
      simpa [hdraws] using hrules
    rw [hexchanged.interrupting] at hgoes
    rw [hstep] at hopen
    have hwhole : ∀ {text text' closing : List Char}, mark ++ text = text' ++ closing →
        mark ++ (text ++ q.all) = text' ++ closing ++ q.all := by
      intro text text' closing heq
      rw [← List.append_assoc, heq]
    have hflat : ∀ rs : List RawLine, flat (rs ++ [q]) = flat rs ++ q.all := by
      intro rs
      simp [RawLine.all]
    refine ⟨_, h.append_singleton (hN.append_singleton hmiddle.wellFormed hmiddle.start) ?_⟩
    rw [hr, foldl_linesAt_append_singleton, hflat, hflat, hwhole hS, hwhole hT, hT]
    rw [hflat, hwhole hS] at hl
    rw [hS] at hk
    exact hexchanged.table hk (Line.Shows.lineAt _ q) hl (Line.Shows.lineAt _ p) hgoes hhead hopen
      hrule (by rw [hblocks, hstep])

end OneLine

/-- **Lines whose paragraphs are laid out anew** are read as the new lines are. -/
theorem Input.exists_output (h : Input f whole mark P R) (hf : Edits f) :
    ∃ N, Output f mark P R N := by
  induction hn : R.length using Nat.strong_induction_on generalizing P R with
  | _ n ih =>
  rcases List.eq_nil_or_concat R with rfl | ⟨R, l, rfl⟩
  · obtain rfl : P = [] := h.shows.nil_iff.mp rfl
    refine ⟨[], ⟨h.wellFormed, rfl, h.start⟩, ?_⟩
    refine .intro (S := []) (T := []) (x := mark) (v := .empty) (by simp) (by simp)
      ⟨rfl, rfl, rfl, rfl, rfl, rfl⟩ ⟨rfl, rfl, rfl, rfl, rfl, rfl⟩ ?_ (Nat.zero_le _) .nil .nil
    exact ⟨Nat.le_refl _, fun _ _ _ _ _ h => Leaf.noConfusion h,
      fun _ hb => absurd hb List.not_mem_nil⟩
  rw [List.concat_eq_append] at h hn ⊢
  obtain ⟨P, p, rfl, hP, hl⟩ := Shows.append_singleton_iff.mp h.shows
  rw [← byteLength_append] at hl
  have hfront := h.front hP
  obtain ⟨N, hN⟩ := ih _ (by rw [← hn]; simp) hfront rfl
  -- a line that ends no paragraph with an edit is the same in both texts
  have hplain : Reader.Adds (fun b => f b = none) (R.foldl Reader.step .empty)
      ((R.foldl Reader.step .empty).step l) → ∃ N, Output f mark (P ++ [p]) (R ++ [l]) N :=
    fun hadds => ⟨N ++ [p], h.append_singleton hN.toWritten
      (hN.aligned.step hl (Line.Shows.lineAt _ p) hadds)⟩
  by_cases hin : (R.foldl Reader.step .empty).frames = [] ∧
      (R.foldl Reader.step .empty).leaf.isText = true
  · obtain ⟨R₀, ls, hsplit, hopened⟩ :=
      Reader.exists_opened hP.placed hin.1 hin.2
    obtain ⟨lead, lines, hholds⟩ := hopened.holds
    have hbefore : ∀ P₀, Input f whole mark P₀ R₀ → ∃ N₀, Output f mark P₀ R₀ N₀ :=
      fun P₀ hin => ih _ (by rw [← hn, hsplit]; simp) hin rfl
    cases hholds.inText.next hl.placed with
    | goesOn hgoes hstep =>
      exact hplain ⟨[], by rw [hstep]; rfl, fun _ hb => absurd hb List.not_mem_nil⟩
    | underline hunderline hstep =>
      have hmem : ∀ b ∈ (Content.parts lead lines).1,
          b ∈ ((R.foldl Reader.step .empty).step l).blocks := by
        intro b hb
        rcases hholds.inText.meet_underline l (R.foldl Reader.step .empty).stop with
          ⟨-, hmeet⟩ | ⟨span, gs, hmeet⟩
        · rw [hstep, hmeet]
          simp [hb]
        · rw [hstep, hmeet]
          simp [hb]
      have hparts : ∀ b ∈ (Content.parts lead lines).1, f b = none := by
        intro b hb
        rcases Content.mem_parts hb with hdefines | ⟨k, hk, rfl⟩
        · exact hf.other b (Block.isParagraph_of_defines hdefines)
        · exact hfront.lead_unedited hf hsplit hholds hk fun e he => h.relaid_step _
            (hmem _ hb) e he
      rcases hholds.inText.meet_underline l (R.foldl Reader.step .empty).stop with
        ⟨-, hmeet⟩ | ⟨span, gs, hmeet⟩
      · rw [hmeet] at hstep
        exact hplain ⟨_, by rw [hstep], fun b hb => hparts b (List.mem_reverse.mp hb)⟩
      · rw [hmeet] at hstep
        refine hplain ⟨_, by rw [hstep], fun b hb => ?_⟩
        rcases List.mem_append.mp (List.mem_reverse.mp hb) with hb | hb
        · exact hparts b hb
        · rw [List.mem_singleton.mp hb]
          exact hf.other _ rfl
    | ends hends =>
      by_cases hnone : ∀ b ∈ Content.blocks lead lines, f b = none
      · obtain ⟨bs, hbs, hall⟩ := Reader.adds_no_paragraph
          (r := (R.foldl Reader.step .empty).clear) hl.placed fun h => by cases h.2
        refine hplain ⟨bs ++ (Content.blocks lead lines).reverse, ?_, fun b hb => ?_⟩
        · rw [hholds.inText.step_ends hl.placed hends, Reader.behind, hbs]
          simp [Reader.clear]
        · rcases List.mem_append.mp hb with hb | hb
          · exact hf.other b (hall b hb)
          · exact hnone b (List.mem_reverse.mp hb)
      · obtain ⟨b, hb, e, he⟩ := exists_edit hnone
        exact h.output_of_ends hf hP hl hsplit hbefore hopened hholds hends hb he
    | @table first rest cells hlines hopen hrule hleaf hstep =>
      by_cases hnone : ∀ b ∈ Content.blocks lead rest, f b = none
      · refine hplain ⟨(Content.blocks lead rest).reverse, by rw [hstep], fun b hb => ?_⟩
        exact hnone b (List.mem_reverse.mp hb)
      · obtain ⟨b, hb, e, he⟩ := exists_edit hnone
        rw [hlines] at hleaf
        exact h.output_of_table hf hP hl hsplit hbefore hopened hopen hrule hleaf
          (by rw [hstep]) hb he
  · obtain ⟨bs, hbs, hall⟩ := Reader.adds_no_paragraph hl.placed hin
    exact hplain ⟨bs, hbs, fun b hb => hf.other b (hall b hb)⟩

/-- Where no paragraph with an edit comes to its end with the text. -/
theorem Aligned.finish (h : Aligned f source target r r')
    (hadds : Reader.Adds (fun b => f b = none) r (r.flush r.frames.length)) :
    (marks r.finish).map (Mark.kind source) = (marks r'.finish).map (Mark.kind target) ∧
      Edited source target (r.finish.filterMap f) := by
  have hedited := h.edited
  rw [← editsOf_eq_of_adds hadds] at hedited
  refine ⟨?_, hedited⟩
  obtain @⟨S, T, x, v, front, back, rfl, rfl, hr, hr', horder, hnext, hkinds, -⟩ := h
  have hflush := (hr.flush v.frames.length).blocks
  have hflush' := (hr'.flush v.frames.length).blocks
  have hstops : ∀ m ∈ marks (v.flush v.frames.length).blocks, ∀ span, m = .code span →
      span.stop ≤ byteLength x := by
    intro m hm span hspan
    obtain ⟨b, hb, rfl⟩ := List.mem_map.mp hm
    exact Nat.le_trans (horder.flush _ b hb span hspan) hnext
  have hsame := hkinds.append hstops
  rw [← hflush, ← hflush'] at hsame
  have hboth := congrArg List.reverse (hsame [] [])
  rw [List.append_nil, List.append_nil, ← List.map_reverse, ← List.map_reverse, ← marks_reverse,
    ← marks_reverse] at hboth
  rw [Reader.finish, Reader.finish, hr.length_frames, hr'.length_frames]
  exact hboth

/-- What was read stays when the reading comes to its end. -/
theorem exists_finish (r : Reader) : ∃ bs, r.finish = r.blocks.reverse ++ bs := by
  have hpush : Reader.Adds (fun _ => True) r (r.push (r.leaf.close (.flushed r.stop r.next))) :=
    Reader.adds_push _ fun _ _ _ => trivial
  have hflush : Reader.Adds (fun _ => True) r (r.flush r.frames.length) :=
    (hpush.congr rfl).trans (Reader.adds_closeFrames (fun _ _ _ => trivial) _ _ _)
  obtain ⟨bs, hbs, -⟩ := hflush
  exact ⟨bs.reverse, by rw [Reader.finish, hbs, List.reverse_append]⟩

theorem mem_finish {b : Block} (h : b ∈ r.blocks) : b ∈ r.finish := by
  obtain ⟨bs, hbs⟩ := exists_finish r
  rw [hbs]
  simp [h]

theorem editsApart_of_finish (h : EditsApart f r.finish) : EditsApart f r.blocks.reverse := by
  obtain ⟨bs, hbs⟩ := exists_finish r
  rw [hbs] at h
  exact (List.isChain_append.mp h).1

/-- **A text whose paragraphs are laid out anew** has the blocks that it had. -/
theorem Input.finish (h : Input f whole mark P R) (hf : Edits f)
    (hapart : EditsApart f (R.foldl Reader.step .empty).finish)
    (hrelaid : ∀ b ∈ (R.foldl Reader.step .empty).finish, ∀ e, f b = some e →
      ∃ old, Text.slice whole e.span = some old ∧ Relaid old e.content) :
    ∃ N, Written mark P N ∧
      (marks (R.foldl Reader.step .empty).finish).map (Mark.kind (mark ++ flat P)) =
        (marks ((linesAt (byteLength mark) N).foldl Reader.step .empty).finish).map
          (Mark.kind (mark ++ flat N)) ∧
      Edited (mark ++ flat P) (mark ++ flat N)
        ((R.foldl Reader.step .empty).finish.filterMap f) := by
  obtain ⟨N, hN⟩ := h.exists_output hf
  by_cases hin : (R.foldl Reader.step .empty).frames = [] ∧
      (R.foldl Reader.step .empty).leaf.isText = true
  · obtain ⟨R₀, ls, hsplit, hopened⟩ :=
      Reader.exists_opened h.shows.placed hin.1 hin.2
    obtain ⟨lead, lines, hholds⟩ := hopened.holds
    have hfinish := hholds.inText.finish_eq
    have hmem : ∀ b ∈ Content.blocks lead lines, b ∈ (R.foldl Reader.step .empty).finish := by
      intro b hb
      rw [hfinish]
      exact List.mem_append_right _ hb
    by_cases hnone : ∀ b ∈ Content.blocks lead lines, f b = none
    · refine ⟨N, hN.toWritten, hN.aligned.finish ⟨(Content.blocks lead lines).reverse, ?_, ?_⟩⟩
      · have hreverse := congrArg List.reverse hfinish
        rw [Reader.finish, List.reverse_reverse, List.reverse_append,
          List.reverse_reverse] at hreverse
        exact hreverse
      · exact fun b hb => hnone b (List.mem_reverse.mp hb)
    · obtain ⟨b, hb, e, he⟩ := exists_edit hnone
      obtain @⟨N, S, T, ending, lines', rfl, hN, hS, hT, hexchanged⟩ :=
        h.swapped hf hsplit hopened hholds (List.isChain_append.mp (hfinish ▸ hapart)).2.1
          (fun b hb => hrelaid b (hmem b hb)) hb he fun P₀ hin => hin.exists_output hf
      rw [hS]
      exact ⟨N, hN, by rw [hT]; exact hexchanged.finish⟩
  · refine ⟨N, hN.toWritten, hN.aligned.finish ?_⟩
    have hleaf : (R.foldl Reader.step .empty).frames = [] →
        (R.foldl Reader.step .empty).leaf.isText = false := by
      intro hframes
      cases htext : (R.foldl Reader.step .empty).leaf.isText with
      | false => rfl
      | true => exact absurd ⟨hframes, htext⟩ hin
    generalize R.foldl Reader.step .empty = r at *
    have hpush : Reader.Adds (fun b => b.isParagraph = false) r
        (r.push (r.leaf.close (.flushed r.stop r.next))) :=
      Reader.adds_push _ fun hframes => r.leaf.isParagraph_close (hleaf hframes) _
    have hflush : Reader.Adds (fun b => b.isParagraph = false) r (r.flush r.frames.length) :=
      (hpush.congr rfl).trans (Reader.adds_closeFrames (fun _ _ _ => rfl) _ _ _)
    obtain ⟨bs, hbs, hall⟩ := hflush
    exact ⟨bs, hbs, fun b hb => hf.other b (hall b hb)⟩

end LiveDoc.Layout
