import LiveDoc.Proofs.Markdown.CodeSteps

/-!
# The lines of a fence

What a line does to an outline with an open fence, and what it takes to open one.

* A line that lacks no container is read by the fence alone, and closes it or stands in it
  (`Outline.step_closing`, `Outline.exists_step_inner`); another one ends it
  (`Outline.step_missing`).
* So a fence is closed by a line, or it is still open where it ends (`Outline.fence_cases`).
* The line that opens a fence may say something else behind its marker (`Outline.step_opening`).
-/

namespace LiveDoc.Markdown

variable {p n : Nat} {o : Outline} {op op' : FenceOpening} {value : List (List Char)}
  {ending : List Char}
variable {W ms ms' : List Glyph} {g : Glyph} {l l' : Line}

namespace Outline

theorem length_continued_le (cs : List Container) (gs : List Glyph) :
    (continued cs gs).1.length ≤ cs.length := by
  induction cs generalizing gs with
  | nil => exact Nat.le_refl 0
  | cons c rest ih =>
    rw [continued]
    cases c.continue? gs with
    | none => exact Nat.zero_le _
    | some result =>
      obtain ⟨c, left⟩ := result
      simpa using ih left

/-- A line lacks no container. -/
def Keeps (o : Outline) (l : Line) : Prop :=
  (continued o.containers.reverse l.glyphs).1.length = o.containers.length

/-- What is left of a line behind the containers that go on with it. -/
def behind (o : Outline) (l : Line) : List Glyph := (continued o.containers.reverse l.glyphs).2

/-- The containers that go on with a line, the innermost first. -/
def kept (o : Outline) (l : Line) : List Container :=
  (continued o.containers.reverse l.glyphs).1.reverse

/-- A line that lacks no container is read by the leaf that is open, if the leaf takes any line. -/
theorem step_concrete (bs : List Block) (hconcrete : o.leaf.isConcrete = true) (h : o.Keeps l)
    {next : Leaf} (htaken : o.leaf.continue? (l.cutTo (o.behind l)) false = some (bs, next)) :
    o.step l = (codesOf bs, ⟨o.kept l, next, false, l.stop, l.next⟩) := by
  have hmissing : o.containers.length - (continued o.containers.reverse l.glyphs).1.length = 0 := by
    rw [show _ = _ from h, Nat.sub_self]
  have hstarted : o.started 0 (continued o.containers.reverse l.glyphs).2 = ([], o.behind l) := by
    rw [started, hconcrete]
    rfl
  have hgoOn : o.goOn (continued o.containers.reverse l.glyphs).1 =
      { o with containers := o.kept l } := by
    rw [goOn, hmissing, List.take_zero, List.nil_append]
    rfl
  have hfeed : feed { o with containers := o.kept l } (l.cutTo (o.behind l)) 0 false =
      (codesOf bs, { o with containers := o.kept l, leaf := next, interrupting := false }) := by
    unfold feed
    dsimp only
    rw [if_neg (by simp), htaken]
  unfold step
  dsimp only
  rw [hmissing, hstarted, hgoOn]
  simp only [place, List.isEmpty_nil, if_true, hfeed]

theorem stop_behind (o : Outline) (l : Line) : (l.cutTo (o.behind l)).stop = l.stop :=
  Line.stop_cutTo (suffix_of_continued o.containers.reverse l.glyphs)

/-- The line that closes a fence. -/
theorem step_closing (hleaf : o.leaf = .fence op value ending) (h : o.Keeps l)
    (hclosed : op.closedBy (o.behind l) = true) :
    o.step l = ([op.code l.stop (ending :: value)], ⟨o.kept l, .none, false, l.stop, l.next⟩) := by
  refine step_concrete [op.block l.stop (ending :: value)] (by rw [hleaf]; rfl) h ?_
  rw [hleaf, Leaf.continue?, stop_behind]
  exact if_pos hclosed

/-- A line inside of a fence. It loses as many spaces as the first line has in front of its
marker. -/
theorem step_inner (hleaf : o.leaf = .fence op value ending) (h : o.Keeps l)
    (hclosed : op.closedBy (o.behind l) = false) :
    o.step l = ([], ⟨o.kept l, .fence op
      (Glyph.text (Glyph.cutSpaces op.indent (o.behind l)).2 :: ending :: value) (endingText l),
      false, l.stop, l.next⟩) := by
  refine step_concrete [] (by rw [hleaf]; rfl) h ?_
  rw [hleaf, Leaf.continue?]
  exact if_neg (Bool.eq_false_iff.mp hclosed)

end Outline

/-! ## The line that opens a fence -/

/-- Spaces that a marker may stand behind. -/
def Indents (W : List Glyph) : Prop := Glyph.cutSpaces indentMax W = (W, [])

theorem Indents.isSpace (h : Indents W) : W.all Glyph.isSpace = true := by
  rw [List.all_eq_true]
  intro g hg
  have hcut : g ∈ (Glyph.cutSpaces indentMax W).1 := by rw [h]; exact hg
  exact Glyph.isSpace_of_mem_cutSpaces hcut

theorem Indents.cutSpaces (h : Indents W) {M : List Glyph} (hM : Solid M) :
    Glyph.cutSpaces indentMax (W ++ M) = (W, M) := by
  rw [Glyph.cutSpaces_append hM, h]
  rfl

theorem indents_of_cutSpaces {gs M : List Glyph} (hM : Solid M)
    (h : Glyph.cutSpaces indentMax gs = (W, M)) : gs = W ++ M ∧ Indents W := by
  have hself := Glyph.cutSpaces_append_self indentMax gs
  rw [h] at hself
  have hparts := Glyph.cutSpaces_append hM indentMax W
  rw [hself, h] at hparts
  obtain ⟨hfront, hback⟩ := Prod.mk.inj hparts
  exact ⟨hself.symm, Prod.ext hfront.symm (List.self_eq_append_left.mp hback)⟩

namespace FenceOpening

/-- The line of an opening in its parts. -/
theorem exists_parts {gs : List Glyph} (h : read? gs = some op) :
    ∃ W g ms, gs = W ++ g :: ms ∧ Indents W ∧ g.isTick = true ∧ op.start = g.start := by
  obtain ⟨g, ms, hcut, hg, hstart⟩ := exists_of_read? h
  obtain ⟨hgs, hW⟩ := indents_of_cutSpaces (solid_of_isTick hg ms) (Prod.ext rfl hcut)
  exact ⟨_, g, ms, hgs, hW, hg, hstart⟩

/-- The closing line of a fence in its parts. -/
theorem exists_of_closedBy {gs : List Glyph} (h : op.closedBy gs = true)
    (hmarker : op.marker = '`' ∨ op.marker = '~') (hlength : lengthMin ≤ op.length) :
    ∃ W g ms, gs = W ++ g :: ms ∧ Indents W ∧ g.isTick = true ∧ g.char = op.marker ∧
      op.length ≤ ((g :: ms).takeWhile (·.char = op.marker)).length ∧
      ((g :: ms).dropWhile (·.char = op.marker)).all Glyph.isSpace = true := by
  unfold closedBy at h
  dsimp only at h
  rw [Bool.and_eq_true, decide_eq_true_eq] at h
  cases hcut : Glyph.cutSpaces indentMax gs with
  | mk W M =>
  rw [hcut] at h
  obtain ⟨hrun, hblank⟩ := h
  have hpos : 0 < (M.takeWhile (·.char = op.marker)).length :=
    Nat.lt_of_lt_of_le (by decide) (Nat.le_trans hlength hrun)
  obtain ⟨g, ms, rfl, hg⟩ : ∃ g ms, M = g :: ms ∧ g.char = op.marker := by
    cases M with
    | nil => exact absurd hpos (Nat.lt_irrefl 0)
    | cons g ms =>
      refine ⟨g, ms, rfl, ?_⟩
      by_contra hne
      rw [List.takeWhile_cons_of_neg (by simpa using hne)] at hpos
      exact absurd hpos (Nat.lt_irrefl 0)
  have htick : g.isTick = true := Glyph.isTick_iff.mpr (by rw [hg]; exact hmarker)
  obtain ⟨hgs, hW⟩ := indents_of_cutSpaces (solid_of_isTick htick ms) hcut
  exact ⟨W, g, ms, hgs, hW, htick, hg, hrun, hblank⟩

end FenceOpening

theorem Table.isRule_of_isTick (hW : Indents W) (hg : g.isTick = true) (ms : List Glyph)
    (cells : Nat) :
    Table.isRule cells (W ++ g :: ms) = false := by
  unfold Table.isRule
  rw [hW.cutSpaces (solid_of_isTick hg ms)]
  rcases Glyph.isTick_iff.mp hg with h | h <;>
    simp [Table.rulesFrom, Glyph.startsWith, h]

/-- A leaf that does not take the opening of a fence takes none that stands behind the same
spaces. -/
theorem Leaf.continue?_opening (hW : Indents W) (hg : g.isTick = true) {leaf : Leaf}
    {pierced : Bool} (hl : l.glyphs = W ++ g :: ms) (hl' : l'.glyphs = W ++ g :: ms')
    (h : leaf.continue? l pierced = Option.none) : leaf.continue? l' pierced = Option.none := by
  have hblank : ∀ ms, (W ++ g :: ms).all Glyph.isSpace = false := fun ms =>
    (solid_of_isTick hg ms).not_blank W
  cases leaf with
  | fence o value ending =>
    unfold continue? at h
    dsimp only at h
    split at h <;> cases h
  | html kind start =>
    unfold continue? at h
    rw [Line.isBlank, hl, hblank] at h
    simp only [Bool.false_and, Bool.false_eq_true, if_false] at h
    split at h <;> cases h
  | indented start stop value waiting =>
    unfold continue? at h ⊢
    simp only [Line.isBlank, hl, hblank, Container.takeIndent?_append (solid_of_isTick hg ms)] at h
    simp only [Line.isBlank, hl', hblank, Container.takeIndent?_append (solid_of_isTick hg ms')]
    split
    · rfl
    · next hpierced =>
      rw [if_neg hpierced] at h
      cases htake : Container.takeIndent? Glyph.tabWidth W with
      | none => rfl
      | some rest =>
        rw [htake] at h
        cases h
  | content lead lines head =>
    unfold continue?
    split
    · next heq => cases heq
    · next heq => cases heq
    · next heq => cases heq
    · rw [hl', Table.isRule_of_isTick hW hg, Bool.and_false]
      rfl
    · rfl
  | _ => rfl

namespace Start

variable {leaf : Leaf} {m : Meeting}

/-- A line that starts no indented code, but may start a fence. -/
theorem ofAny_eq_fence_iff : ofAny leaf m l = .fence op ↔ l.isBlank = false ∧
    (if m.interrupting then none else Container.takeIndent? Glyph.tabWidth l.glyphs) = none ∧
      fence? l.glyphs = some (.fence op) := by
  constructor
  · intro h
    have hfence := fence?_of_ofAny h
    unfold ofAny at h
    dsimp only at h
    split at h
    · cases h
    · next hblank =>
      split at h
      · cases h
      · next hcode =>
        exact ⟨by simpa using hblank, Option.eq_none_iff_forall_ne_some.mpr fun rest hr =>
          hcode rest hr, hfence⟩
  · rintro ⟨hblank, hcode, hfence⟩
    unfold ofAny
    dsimp only
    rw [hblank, hcode, hfence]
    rfl

/-- Another opening behind the same spaces starts a fence as well. -/
theorem ofLine_opening (hW : Indents W) (hg : g.isTick = true) (hl : l.glyphs = W ++ g :: ms)
    (hl' : l'.glyphs = W ++ g :: ms') (h : ofLine leaf m l = .fence op)
    (hread : FenceOpening.read? (W ++ g :: ms') = some op') : ofLine leaf m l' = .fence op' := by
  have hfence : fence? l'.glyphs = some (.fence op') := by
    rw [fence?, hl', hread]
    rfl
  cases W with
  | nil =>
    have hhead : l'.glyphs.head?.map (·.char) = some g.char := by rw [hl']; rfl
    unfold ofLine
    dsimp only
    rw [hhead, hfence]
    rcases Glyph.isTick_iff.mp hg with hc | hc <;> simp [hc]
  | cons w more =>
    have hspace : w.isSpace = true := by
      have hall := hW.isSpace
      rw [List.all_cons, Bool.and_eq_true] at hall
      exact hall.1
    have hmarker : isMarker w.char = false := by
      have hc : w.char = ' ' ∨ w.char = '\t' := by simpa [Glyph.isSpace] using hspace
      rcases hc with hc | hc <;> simp [isMarker, hc]
    rw [ofLine_eq_ofAny (by rw [hl]; rfl) hmarker] at h
    rw [ofLine_eq_ofAny (by rw [hl']; rfl) hmarker]
    obtain ⟨-, hcode, -⟩ := ofAny_eq_fence_iff.mp h
    refine ofAny_eq_fence_iff.mpr ⟨?_, ?_, hfence⟩
    · rw [Line.isBlank, hl', (solid_of_isTick hg ms').not_blank]
    · split
      · rfl
      · next hinterrupting =>
        rw [if_neg hinterrupting, hl, Container.takeIndent?_append (solid_of_isTick hg ms)] at hcode
        rw [hl', Container.takeIndent?_append (solid_of_isTick hg ms'),
          Option.map_eq_none_iff.mp hcode]
        rfl

end Start

theorem Leaf.continue?_ne_opening {leaf : Leaf} {pierced : Bool} {bs : List Block} :
    leaf.continue? l pierced ≠ some (bs, .fence op [] ending) := by
  intro h
  unfold continue? at h
  split at h
  · split at h <;> cases h
  · split at h
    · cases h
    · split at h <;> cases h
  · split at h
    · cases h
    · split at h
      · cases h
      · split at h <;> cases h
  · split at h <;> cases h
  · cases h

theorem Start.eq_fence_of_leaf {s : Start} (h : (s.leaf l).2 = .fence op [] ending) :
    s = .fence op := by
  cases s with
  | fence o => cases h; rfl
  | indented rest single => cases single <;> cases h
  | html kind =>
    unfold Start.leaf at h
    dsimp only at h
    split at h <;> cases h
  | _ => cases h

theorem Leaf.eq_fence_of_meet {leaf : Leaf} {s : Start} {stop : Nat}
    (h : (leaf.meet s l stop).2 = .fence op [] ending) : s = .fence op := by
  cases leaf with
  | content lead lines head =>
    cases s with
    | content after => cases h
    | underline =>
      unfold meet at h
      dsimp only at h
      split at h <;> cases h
    | _ => exact Start.eq_fence_of_leaf (l := l) h
  | table start last rows =>
    cases s with
    | row => cases h
    | _ => exact Start.eq_fence_of_leaf (l := l) h
  | _ => exact Start.eq_fence_of_leaf (l := l) h

theorem Leaf.meet_fence (leaf : Leaf) (stop : Nat) :
    leaf.meet (.fence op) l stop = (leaf.close (.cut stop) ++ [], .fence op [] (endingText l)) := by
  cases leaf <;> rfl

namespace Outline

/-- A line that the open leaf does not take opens a fence. -/
structure OpensBy (o : Outline) (line : Line) (missing : Nat) (pierced : Bool) (op : FenceOpening) :
    Prop where
  refused : missing = 0 → o.leaf.continue? line pierced = none
  starts : Start.ofLine o.leaf ⟨o.interrupting && !pierced, decide (missing ≠ 0), pierced⟩ line =
    .fence op

theorem OpensBy.feed {line : Line} {missing : Nat} {pierced : Bool}
    (h : o.OpensBy line missing pierced op) :
    o.feed line missing pierced = (codesOf (o.leaf.close (.cut o.stop)),
      { o with containers := o.containers.drop missing, leaf := .fence op [] (endingText line),
               interrupting := false }) := by
  have htaken : (if missing ≠ 0 then none else o.leaf.continue? line pierced) = none := by
    split
    · rfl
    · next hzero => exact h.refused (not_not.mp hzero)
  unfold Outline.feed
  dsimp only
  rw [htaken, h.starts]
  dsimp only
  split
  · rw [Start.leaf]
    simp [codesOf, Start.isContent]
  · next hlazy =>
    have hzero : missing = 0 := by simpa [Start.isContent] using hlazy
    rw [Leaf.meet_fence, hzero, List.append_nil]
    rfl

theorem opensBy_of_feed {line : Line} {missing : Nat} {pierced : Bool}
    (h : (o.feed line missing pierced).2.leaf = .fence op [] ending) :
    o.OpensBy line missing pierced op := by
  unfold feed at h
  dsimp only at h
  split at h
  · next bs leaf htaken =>
    split at htaken
    · cases htaken
    · have hleaf : leaf = .fence op [] ending := h
      exact absurd (hleaf ▸ htaken) Leaf.continue?_ne_opening
  · next htaken =>
    refine ⟨fun hzero => by rwa [if_neg (not_not.mpr hzero)] at htaken, ?_⟩
    split at h
    · exact Start.eq_fence_of_leaf h
    · exact Leaf.eq_fence_of_meet h

/-- Another opening behind the same spaces opens a fence as well. -/
theorem OpensBy.exchange {line line' : Line} {missing : Nat} {pierced : Bool}
    (h : o.OpensBy line missing pierced op) (hW : Indents W) (hg : g.isTick = true)
    (hline : line.glyphs = W ++ g :: ms) (hline' : line'.glyphs = W ++ g :: ms')
    (hread : FenceOpening.read? (W ++ g :: ms') = some op') : o.OpensBy line' missing pierced op' :=
  ⟨fun hzero => Leaf.continue?_opening hW hg hline hline' (h.refused hzero),
    Start.ofLine_opening hW hg hline hline' h.starts hread⟩

/-- Code that the opening of a fence ends stops on the lines before. -/
theorem stop_le_of_opening (ho : o.Before p) (h : (o.step l).2.leaf = .fence op [] ending) :
    ∀ c ∈ (o.step l).1, c.span.stop ≤ p := by
  have hclose :
    ∀ {c : Closing}, o.leaf.endAt c ≤ p → ∀ d ∈ codesOf (o.leaf.close c), d.span.stop ≤ p :=
    fun hc => (Leaf.ends_close ho.leaf hc).stop_le
  obtain ⟨hcut, hflushed⟩ :
    o.leaf.endAt (.cut o.stop) ≤ p ∧ o.leaf.endAt (.flushed o.stop o.next) ≤ p :=
    ⟨(o.leaf.endAt_le ho.stop ho.next).1, (o.leaf.endAt_le ho.stop ho.next).2⟩
  unfold step at h ⊢
  dsimp only at h ⊢
  generalize o.containers.length - (continued o.containers.reverse l.glyphs).1.length =
    missing at h ⊢
  generalize o.started missing (continued o.containers.reverse l.glyphs).2 = started at h ⊢
  obtain ⟨new, rest⟩ := started
  dsimp only at h ⊢
  unfold place at h ⊢
  split
  · next hnew =>
    rw [if_pos hnew] at h
    rw [(opensBy_of_feed h).feed]
    exact hclose hcut
  · next hnew =>
    rw [if_neg hnew] at h
    dsimp only at h ⊢
    rw [(opensBy_of_feed h).feed]
    intro d hd
    rcases List.mem_append.mp hd with hd | hd
    · exact hclose hflushed d hd
    · cases hd

theorem exists_place_opening {missing : Nat} {new : List Container} {rest : List Glyph}
    (h : (o.place l missing new rest).2.leaf = .fence op [] ending) :
    ∃ W g ms, rest = W ++ g :: ms ∧ Indents W ∧ g.isTick = true ∧ op.start = g.start ∧
      FenceOpening.read? (W ++ g :: ms) = some op ∧ ∃ codes containers, ∀ l' ms' op',
        FenceOpening.read? (W ++ g :: ms') = some op' → o.place l' missing new (W ++ g :: ms') =
          (codes, ⟨containers, .fence op' [] (endingText l'), false, o.stop, o.next⟩) := by
  unfold place at h
  split at h
  · next hnew =>
    have hopens := opensBy_of_feed h
    have hread : FenceOpening.read? rest = some op := Start.read?_of_ofLine hopens.starts
    obtain ⟨W, g, ms, rfl, hW, hg, hstart⟩ := FenceOpening.exists_parts hread
    refine ⟨W, g, ms, rfl, hW, hg, hstart, hread, codesOf (o.leaf.close (.cut o.stop)),
      o.containers.drop missing, fun l' ms' op' hread' => ?_⟩
    have hexchanged : OpensBy _ (l'.cutTo (W ++ g :: ms')) _ _ op' :=
      hopens.exchange hW hg rfl rfl hread'
    rw [place, if_pos hnew, hexchanged.feed]
    rfl
  · next hnew =>
    have hopens := opensBy_of_feed h
    have hread : FenceOpening.read? rest = some op := Start.read?_of_ofLine hopens.starts
    obtain ⟨W, g, ms, rfl, hW, hg, hstart⟩ := FenceOpening.exists_parts hread
    refine ⟨W, g, ms, rfl, hW, hg, hstart, hread, o.flushed ++ [], new ++ o.containers.drop missing,
      fun l' ms' op' hread' => ?_⟩
    have hexchanged : OpensBy _ (l'.cutTo (W ++ g :: ms')) _ _ op' :=
      hopens.exchange hW hg rfl rfl hread'
    rw [place, if_neg hnew]
    dsimp only
    rw [hexchanged.feed]
    rfl

/-- The containers that start in front of a fence do not depend on what stands behind the first
glyph of its marker. -/
theorem started_front (hg : g.isTick = true) (hW : W.all Glyph.isSpace = true) {missing : Nat}
    {H : List Glyph} {new : List Container}
    (h : o.started missing (H ++ g :: ms) = (new, W ++ g :: ms)) (ms' : List Glyph) :
    o.started missing (H ++ g :: ms') = (new, W ++ g :: ms') := by
  unfold started at h ⊢
  split at h
  · next hconcrete =>
    obtain ⟨rfl, hH⟩ := Prod.mk.inj h
    rw [if_pos hconcrete, List.append_cancel_right hH]
  · next hconcrete =>
    rw [if_neg hconcrete]
    have hlength : ∀ ms, H.length < (H ++ g :: ms).length + 1 := by
      intro ms
      rw [List.length_append]
      omega
    exact opened_front hg hW (hlength ms) (hlength ms') h ms'

/-- **The opening of a fence.** The line that opens a fence may say something else from the first
glyph of its marker on: what comes to its end before, and the containers of the fence, do not depend
on it. -/
theorem step_opening (h : (o.step l).2.leaf = .fence op [] ending) :
    ∃ H g ms W, l.glyphs = H ++ g :: ms ∧ g.isTick = true ∧ op.start = g.start ∧ Indents W ∧
      FenceOpening.read? (W ++ g :: ms) = some op ∧
      ∀ l' ms' op', l'.glyphs = H ++ g :: ms' → FenceOpening.read? (W ++ g :: ms') = some op' →
        o.step l' = ((o.step l).1, ⟨(o.step l).2.containers, .fence op' [] (endingText l'), false,
          l'.stop, l'.next⟩) := by
  have hstep : ∀ {l : Line} {kept new : List Container} {rest left : List Glyph},
      continued o.containers.reverse l.glyphs = (kept, rest) →
      o.started (o.containers.length - kept.length) rest = (new, left) →
      o.step l = (((o.goOn kept).place l (o.containers.length - kept.length) new left).1,
        { ((o.goOn kept).place l (o.containers.length - kept.length) new left).2 with
          stop := l.stop, next := l.next }) := by
    intro l kept new rest left hcontinued hstarted
    rw [step, hcontinued]
    dsimp only
    rw [hstarted]
  cases hcontinued : continued o.containers.reverse l.glyphs with
  | mk kept rest =>
  cases hstarted : o.started (o.containers.length - kept.length) rest with
  | mk new left =>
  rw [hstep hcontinued hstarted] at h ⊢
  obtain ⟨W, g, ms, rfl, hW, hg, hstart, hread, codes, containers, hplace⟩ := exists_place_opening h
  -- what the containers leave of the line ends with the marker and what stands behind it
  have hsuffix : W ++ g :: ms <:+ l.glyphs := by
    have hleft := o.suffix_of_started (o.containers.length - kept.length) rest
    have hrest := suffix_of_continued o.containers.reverse l.glyphs
    rw [hstarted] at hleft
    rw [hcontinued] at hrest
    exact hleft.trans hrest
  obtain ⟨front, hfront⟩ := hsuffix
  rw [← List.append_assoc] at hfront
  rw [← hfront, continued_append (solid_of_isTick hg ms)] at hcontinued
  obtain ⟨rfl, rfl⟩ := Prod.mk.inj hcontinued
  refine ⟨front ++ W, g, ms, W, hfront.symm, hg, hstart, hW, hread, ?_⟩
  intro l' ms' op' hl' hread'
  have hcontinued' := continued_append (solid_of_isTick hg ms') o.containers.reverse (front ++ W)
  rw [← hl'] at hcontinued'
  rw [hstep hcontinued' (started_front hg hW.isSpace hstarted ms'), hplace l' ms' op' hread',
    hplace l ms op hread]

end Outline

end LiveDoc.Markdown
