import LiveDoc.Proofs.Markdown.Outline
import LiveDoc.Proofs.Markdown.ShiftStep
import LiveDoc.Proofs.Markdown.TextLine

/-!
# Paragraphs outside of all containers
-/

namespace LiveDoc.Markdown

/-- What a leaf and a line can make has a property. -/
structure Leaf.Gives (P : Block → Prop) (leaf : Leaf) (stop next : Nat)
    (l : Line) : Prop where
  cut : ∀ b ∈ leaf.close (.cut stop), P b
  flushed : ∀ b ∈ leaf.close (.flushed stop next), P b
  taken : ∀ pierced bs after, leaf.continue? l pierced = some (bs, after) → ∀ b ∈ bs, P b
  meet : ∀ s, ∀ b ∈ (leaf.meet s l stop).1, P b

/-! ## Outside of all containers -/

namespace Reader

variable {r : Reader} {l : Line}

/-- Where no container is open, a line first starts containers. -/
theorem step_root (hframes : r.frames = []) (l : Line) :
    r.step l =
      let after := r.place l 0 (r.started l 0 l.glyphs).1 (r.started l 0 l.glyphs).2
      { after with stop := l.stop, next := l.next } := by
  have hsame : r.goOn [] = r := by
    obtain ⟨blocks, frames, leaf, interrupting, stop, next⟩ := r
    obtain rfl : frames = [] := hframes
    rfl
  rw [step_eq, hframes]
  simp only [List.reverse_nil, continued, List.length_nil, Nat.sub_zero, hsame]

/-- Containers that start stand in front of those that were open. -/
theorem length_le_opened (fuel : Nat) (interrupting : Bool) (stop : Nat) (frames : List Frame)
    (gs : List Glyph) : frames.length ≤ (opened fuel interrupting stop frames gs).1.length := by
  induction fuel generalizing interrupting frames gs with
  | zero => exact Nat.le_refl _
  | succ fuel ih =>
    rw [opened]
    split
    · exact Nat.le_refl _
    · exact Nat.le_trans (Nat.le_succ _) (ih _ (_ :: frames) _)

/-- A line whose start opens no container is left as it is. -/
theorem opened_eq_nil {fuel : Nat} {interrupting : Bool} {stop : Nat} {gs : List Glyph}
    (h : (opened (fuel + 1) interrupting stop [] gs).1 = []) :
    Container.open? interrupting gs = none ∧
      opened (fuel + 1) interrupting stop [] gs = ([], gs) := by
  rw [opened] at h ⊢
  split at h
  · next hnone => exact ⟨hnone, rfl⟩
  · next container rest hopen =>
    have hlength := length_le_opened fuel false stop [⟨container, Glyph.startOf stop gs, []⟩] rest
    rw [h] at hlength
    exact absurd hlength (by simp)

theorem started_eq_nil {missing : Nat} {rest : List Glyph}
    (h : (r.started l missing rest).1 = []) : r.started l missing rest = ([], rest) := by
  unfold started at h ⊢
  split at h
  · next hconcrete => rw [if_pos hconcrete]
  · next hconcrete =>
    rw [if_neg hconcrete]
    exact (opened_eq_nil h).2

/-- A line that starts no container goes to the leaf. -/
theorem step_of_open?_eq_none (hframes : r.frames = [])
    (hopen : Container.open? r.interrupting l.glyphs = none) (hplaced : l.cutTo l.glyphs = l) :
    r.step l = { r.feed l 0 false with stop := l.stop, next := l.next } := by
  have hstarted : r.started l 0 l.glyphs = ([], l.glyphs) := by
    unfold started
    split
    · rfl
    · simp [opened, hopen]
  rw [step_root hframes]
  simp only [hstarted, place, List.isEmpty_nil, if_true, hplaced]

/-- A reader outside of all containers in the middle of a paragraph. -/
structure InText (r : Reader) (lead : Option Line) (lines : List Line) : Prop where
  frames : r.frames = []
  leaf : ∃ head, r.leaf = .content lead lines head

/-- The line that follows a paragraph is read without it: what comes to its end, and where the
reading goes on. -/
def clear (r : Reader) : Reader := ⟨[], [], .none, r.interrupting, r.stop, r.next⟩

/-- A line that follows a paragraph, starts nothing else and so goes on with it. -/
structure GoesOn (interrupting : Bool) (l : Line) (head : Option Nat) : Prop where
  container : Container.open? interrupting l.glyphs = none
  start : Start.ofLine .none ⟨interrupting, false, false⟩ l = .content head
  underline : isUnderline l.glyphs = false

/-- A line that follows a paragraph and starts something else. -/
def Ends (interrupting : Bool) (l : Line) : Prop :=
  Container.open? interrupting l.glyphs ≠ none ∨
    isUnderline l.glyphs = false ∧
      (Start.ofLine .none ⟨interrupting, false, false⟩ l).isContent = false

namespace InText

variable {lead : Option Line} {lines : List Line}

theorem not_table (h : r.InText lead lines) : r.leaf.isTable = false := by
  obtain ⟨head, hleaf⟩ := h.leaf
  rw [hleaf]
  rfl

theorem push_eq (h : r.InText lead lines) (bs : List Block) :
    r.push bs = { r with blocks := bs.reverse ++ r.blocks } := by
  unfold push
  rw [h.frames]

/-- Where no table starts, a line that starts no container meets the paragraph. -/
theorem feed_eq (h : r.InText lead lines) (hopen : Container.open? r.interrupting l.glyphs = none)
    (hplaced : l.cutTo l.glyphs = l) (htaken : r.leaf.continue? l false = none) :
    r.step l =
      let s := Start.ofLine r.leaf ⟨r.interrupting, false, false⟩ l
      let result := r.leaf.meet s l r.stop
      ⟨result.1.reverse ++ r.blocks, [], result.2, s.isContent, l.stop, l.next⟩ := by
  rw [step_of_open?_eq_none h.frames hopen hplaced]
  unfold feed
  simp only [ne_eq, not_true_eq_false, decide_false, Bool.false_eq_true, if_false, htaken,
    Bool.not_false, Bool.and_true, Bool.false_and, h.push_eq, h.frames]

/-- No table starts with a line that draws no lines. -/
theorem continue?_eq_none (h : r.InText lead lines)
    (hrule : ∀ cells, Table.isRule cells l.glyphs = false) : r.leaf.continue? l false = none := by
  obtain ⟨head, hleaf⟩ := h.leaf
  rw [hleaf]
  unfold Leaf.continue?
  split <;> simp_all

theorem acceptsLazy (h : r.InText lead lines) : r.leaf.acceptsLazy = true := by
  obtain ⟨head, hleaf⟩ := h.leaf
  rw [hleaf]
  rfl

/-- A line that goes on with a paragraph becomes its last one. -/
theorem step_goesOn (h : r.InText lead lines) (hplaced : l.cutTo l.glyphs = l)
    {head : Option Nat} (hgoes : GoesOn r.interrupting l head)
    (htaken : r.leaf.continue? l false = none) :
    r.step l = ⟨r.blocks, [], .content lead (l :: lines) head, true, l.stop, l.next⟩ := by
  obtain ⟨before, hleaf⟩ := h.leaf
  rw [h.feed_eq hgoes.container hplaced htaken, Start.ofLine_eq_none h.not_table hgoes.underline,
    hgoes.start, hleaf]
  rfl

end InText

/-- A reader that has more blocks behind it. -/
def behind (more : List Block) (r : Reader) : Reader := { r with blocks := r.blocks ++ more }

section Behind

variable (more : List Block)

theorem push_behind (r : Reader) (bs : List Block) :
    (r.behind more).push bs = (r.push bs).behind more := by
  unfold behind push
  split <;> simp_all

theorem closeFrames_behind (r : Reader) (stop count : Nat) :
    (r.behind more).closeFrames stop count = (r.closeFrames stop count).behind more := by
  induction count generalizing r with
  | zero => rfl
  | succ count ih =>
    unfold closeFrames
    have hframes : (r.behind more).frames = r.frames := rfl
    rw [hframes]
    split
    · rfl
    · next f frames _ =>
      rw [← ih, ← push_behind]
      rfl

theorem feed_behind (r : Reader) (line : Line) (missing : Nat) (pierced : Bool) :
    (r.behind more).feed line missing pierced = (r.feed line missing pierced).behind more := by
  have hsame : (r.behind more).leaf = r.leaf ∧ (r.behind more).interrupting = r.interrupting ∧
      (r.behind more).stop = r.stop := ⟨rfl, rfl, rfl⟩
  unfold feed
  simp only [hsame, push_behind, closeFrames_behind]
  generalize (if missing ≠ 0 then none else r.leaf.continue? line pierced) = taken
  cases taken with
  | some result => rfl
  | none =>
    dsimp only
    split <;> rfl

end Behind

namespace InText

variable {lead : Option Line} {lines : List Line}

/-- A line that ends a paragraph is read as if it came first, behind the blocks of the paragraph. -/
theorem step_ends (h : r.InText lead lines) (hplaced : l.cutTo l.glyphs = l)
    (hends : Ends r.interrupting l) :
    r.step l = (r.clear.step l).behind ((Content.blocks lead lines).reverse ++ r.blocks) := by
  have hclose : ∀ c, r.leaf.close c = Content.blocks lead lines := by
    obtain ⟨head, hleaf⟩ := h.leaf
    rw [hleaf]
    exact fun _ => rfl
  by_cases hopen : Container.open? r.interrupting l.glyphs = none
  · obtain ⟨hunderline, hcontent⟩ := hends.resolve_left (fun hne => hne hopen)
    have htaken : r.leaf.continue? l false = none := by
      refine h.continue?_eq_none fun cells => ?_
      cases hrule : Table.isRule cells l.glyphs with
      | false => rfl
      | true =>
        obtain ⟨head, hstart⟩ := Table.ofLine_of_isRule hrule (m := ⟨r.interrupting, false, false⟩)
        rw [hstart] at hcontent
        cases hcontent
    rw [h.feed_eq hopen hplaced htaken, step_of_open?_eq_none (r := r.clear) rfl hopen hplaced,
      Start.ofLine_eq_none h.not_table hunderline]
    unfold feed clear behind push
    simp only [ne_eq, not_true_eq_false, decide_false, Bool.false_eq_true, if_false,
      Leaf.continue?, Bool.not_false, Bool.and_true, Bool.false_and]
    generalize hs : Start.ofLine .none ⟨r.interrupting, false, false⟩ l = s at hcontent ⊢
    have hmeet :
        r.leaf.meet s l r.stop = (Content.blocks lead lines ++ (s.leaf l).1, (s.leaf l).2) := by
      obtain ⟨head, hleaf⟩ := h.leaf
      have hnot : s ≠ .underline := by
        rintro rfl
        have hlazy := (Start.acceptsLazy_of_ofLine hs).1
        cases hlazy
      rw [hleaf]
      cases s with
      | content head => cases hcontent
      | underline => exact absurd rfl hnot
      | _ => rfl
    rw [hmeet]
    simp [Leaf.meet, Leaf.close]
  · have hconcrete : r.leaf.isConcrete = false := by
      obtain ⟨head, hleaf⟩ := h.leaf
      rw [hleaf]
      rfl
    have hstarted : r.clear.started l 0 l.glyphs = r.started l 0 l.glyphs := by
      unfold started
      rw [hconcrete]
      rfl
    have hnew : (r.started l 0 l.glyphs).1 ≠ [] := by
      intro hnil
      unfold started at hnil
      simp only [hconcrete, Bool.and_false, Bool.false_eq_true, if_false, decide_true,
        Bool.true_and] at hnil
      exact hopen (opened_eq_nil hnil).1
    have hflush : r.flush 0 =
        (r.clear.flush 0).behind ((Content.blocks lead lines).reverse ++ r.blocks) := by
      unfold flush closeFrames
      dsimp only
      rw [hclose, h.push_eq]
      simp [clear, behind, push, Leaf.close, h.frames]
    rw [step_root h.frames, step_root (r := r.clear) rfl, hstarted]
    unfold place
    rw [if_neg (by simpa using hnew), if_neg (by simpa using hnew), hflush]
    exact congrArg (fun after => { after with stop := l.stop, next := l.next })
      (feed_behind _ { r.clear.flush 0 with frames :=
        (r.started l 0 l.glyphs).1 ++ (r.clear.flush 0).frames }
        (l.cutTo (r.started l 0 l.glyphs).2) 0 true)

end InText


namespace InText

variable {lead : Option Line} {lines : List Line}

/-- What a line does to a paragraph. -/
inductive Next (r : Reader) (lead : Option Line) (lines : List Line) (l : Line) : Prop where
  | goesOn {head : Option Nat} : GoesOn r.interrupting l head →
      r.step l = ⟨r.blocks, [], .content lead (l :: lines) head, true, l.stop, l.next⟩ →
      Next r lead lines l
  /-- The last line of the paragraph is the head of a table. -/
  | table {first : Line} {rest : List Line} {cells : Nat} : lines = first :: rest →
      Container.open? r.interrupting l.glyphs = none → Table.isRule cells l.glyphs = true →
      r.leaf = .content lead lines (some cells) →
      r.step l = ⟨(Content.blocks lead rest).reverse ++ r.blocks, [],
        .table first.start l.stop [first], false, l.stop, l.next⟩ →
      Next r lead lines l
  /-- The paragraph is a heading. -/
  | underline : isUnderline l.glyphs = true →
      r.step l = ⟨(r.leaf.meet .underline l r.stop).1.reverse ++ r.blocks, [],
        (r.leaf.meet .underline l r.stop).2, false, l.stop, l.next⟩ →
      Next r lead lines l
  | ends : Ends r.interrupting l → Next r lead lines l

/-- The line under the last line of a paragraph makes it the head of a table. -/
theorem step_rule {first : Line} {rest : List Line} {cells : Nat} (hframes : r.frames = [])
    (hleaf : r.leaf = .content lead (first :: rest) (some cells)) (hplaced : l.cutTo l.glyphs = l)
    (hopen : Container.open? r.interrupting l.glyphs = none)
    (hrule : Table.isRule cells l.glyphs = true) :
    r.step l = ⟨(Content.blocks lead rest).reverse ++ r.blocks, [],
      .table first.start l.stop [first], false, l.stop, l.next⟩ := by
  have htaken : r.leaf.continue? l false =
      some (Content.blocks lead rest, .table first.start l.stop [first]) := by
    rw [hleaf]
    simp [Leaf.continue?, hrule]
  rw [step_of_open?_eq_none hframes hopen hplaced]
  unfold feed push
  simp only [ne_eq, not_true_eq_false, if_false, htaken, hframes]

/-- **There are four things that a line can do to a paragraph.** -/
theorem next (h : r.InText lead lines) (hplaced : l.cutTo l.glyphs = l) :
    Next r lead lines l := by
  by_cases hopen : Container.open? r.interrupting l.glyphs = none
  · cases htaken : r.leaf.continue? l false with
    | some result =>
      obtain ⟨head, hleaf⟩ := h.leaf
      match lines, head with
      | first :: rest, some cells =>
        have hrule : Table.isRule cells l.glyphs = true := by
          rw [hleaf] at htaken
          simp only [Leaf.continue?] at htaken
          split at htaken
          · next hrule => simpa using hrule
          · cases htaken
        exact .table rfl hopen hrule hleaf (step_rule h.frames hleaf hplaced hopen hrule)
      | [], none => rw [hleaf] at htaken; cases htaken
      | [], some cells => rw [hleaf] at htaken; cases htaken
      | _ :: _, none => rw [hleaf] at htaken; cases htaken
    | none =>
      have hstep := h.feed_eq hopen hplaced htaken
      cases hunderline : isUnderline l.glyphs with
      | true =>
        rw [Start.ofLine_of_isUnderline h.acceptsLazy ⟨rfl, rfl⟩ hunderline] at hstep
        exact .underline hunderline hstep
      | false =>
        cases hs : Start.ofLine .none ⟨r.interrupting, false, false⟩ l with
        | content head =>
          have hgoes : GoesOn r.interrupting l head := ⟨hopen, hs, hunderline⟩
          exact .goesOn hgoes (h.step_goesOn hplaced hgoes htaken)
        | _ => exact .ends (Or.inr ⟨hunderline, by rw [hs]; rfl⟩)
  · exact .ends (Or.inl hopen)

end InText

/-! ## The first line of a paragraph -/

theorem length_frames_push (r : Reader) (bs : List Block) :
    (r.push bs).frames.length = r.frames.length := by
  have hcontainers := congrArg Outline.containers (r.outline_push bs)
  simpa [outline] using congrArg List.length hcontainers

theorem length_frames_closeFrames (r : Reader) (stop count : Nat) :
    (r.closeFrames stop count).frames.length = r.frames.length - count := by
  have hcontainers := congrArg Outline.containers (r.outline_closeFrames stop count)
  simpa [outline] using congrArg List.length hcontainers

/-- The reader when the leaf and all containers come to their end before the line end. -/
def cut (r : Reader) : Reader :=
  closeFrames r.stop r.frames.length (r.push (r.leaf.close (.cut r.stop)))

theorem frames_cut (r : Reader) : r.cut.frames = [] := by
  have hlength := length_frames_closeFrames (r.push (r.leaf.close (.cut r.stop))) r.stop
    r.frames.length
  rw [length_frames_push, Nat.sub_self] at hlength
  exact List.eq_nil_of_length_eq_zero hlength

theorem push_nil (r : Reader) : r.push [] = r := by
  unfold push
  split
  · rfl
  · next f frames hframes =>
    show { r with frames := f :: frames } = r
    rw [← hframes]

/-- Whether a line of text with the given first character starts a paragraph outside of all
containers. -/
inductive Ready (r : Reader) (c : Char) : Prop where
  | outside : r.frames = [] → r.leaf.givesWay c = true → Ready r c
  /-- The line does not belong to the outermost container. -/
  | inside {f : Frame} : r.frames.getLast? = some f → f.container.isOpenEnded = false →
      r.leaf.acceptsLazy = false → Ready r c

section FirstLine

variable {c : Char} (htext : StartsText false l.glyphs)
  (hchar : l.glyphs.head?.map (·.char) = some c) (hplaced : l.cutTo l.glyphs = l)

include htext hchar hplaced

theorem step_outside (hframes : r.frames = []) (hleaf : r.leaf.givesWay c = true) :
    ∃ head, r.step l =
      ⟨r.cut.blocks, [], .content none [l] head, true, l.stop, l.next⟩ := by
  have hcut : r.cut.blocks = (r.leaf.close (.cut r.stop)).reverse ++ r.blocks := by
    unfold cut push
    rw [hframes]
    rfl
  have htaken : r.leaf.continue? l false = none := by
    cases hr : r.leaf with
    | indented start stop value waiting =>
      simp [Leaf.continue?, htext.takeIndent?, Glyph.tabWidth, Line.isBlank, htext.not_blank]
    | none => rfl
    | underlined => rfl
    | table start stop rows => rfl
    | _ => rw [hr] at hleaf; cases hleaf
  obtain ⟨head, hstart⟩ := htext.ofLine r.leaf (m := ⟨r.interrupting, false, false⟩)
    (fun hb => by cases hb) (by
      intro htable
      refine Or.inr fun g hg => ?_
      rw [Option.mem_def.mp hg] at hchar
      obtain rfl : g.char = c := Option.some.inj hchar
      cases hr : r.leaf with
      | table start stop rows => rw [hr] at hleaf; exact hleaf
      | _ => rw [hr] at htable; cases htable)
  have hmeet : r.leaf.meet (.content head) l r.stop =
      (r.leaf.close (.cut r.stop), .content none [l] head) := by
    cases hr : r.leaf with
    | content lead lines head => rw [hr] at hleaf; cases hleaf
    | _ => simp [Leaf.meet, Start.leaf]
  refine ⟨head, ?_⟩
  rw [step_of_open?_eq_none hframes (htext.container _ (Bool.false_le _)) hplaced]
  unfold feed
  simp only [ne_eq, not_true_eq_false, decide_false, Bool.false_eq_true, if_false, htaken,
    Bool.not_false, Bool.and_true, hstart, Bool.false_and, hmeet, Start.isContent, hcut, push,
    hframes]

omit hchar in
theorem step_inside {f : Frame} (hlast : r.frames.getLast? = some f)
    (hasks : f.container.isOpenEnded = false) (hlazy : r.leaf.acceptsLazy = false) :
    ∃ head, r.step l =
      ⟨r.cut.blocks, [], .content none [l] head, true, l.stop, l.next⟩ := by
  have hopen : ∀ interrupting, Container.open? interrupting l.glyphs = none :=
    fun interrupting => htext.container interrupting (Bool.false_le _)
  have hcontinue : f.container.continue? l.glyphs = none := by
    have hquote : Container.takeQuote? l.glyphs = none := by
      have hnone := hopen true
      rw [Container.open?, Option.or_eq_none_iff, Option.map_eq_none_iff] at hnone
      exact hnone.1
    cases hf : f.container with
    | quote => simp [Container.continue?, hquote]
    | item marker width bare =>
      have hwidth : width ≠ 0 := by
        rintro rfl
        rw [hf] at hasks
        cases hasks
      simp [Container.continue?, htext.not_blank, htext.takeIndent? hwidth]
    | footnote label =>
      simp [Container.continue?, htext.not_blank, htext.takeIndent? (show 4 ≠ 0 by decide),
        Glyph.tabWidth]
  have hkept : continued r.frames.reverse l.glyphs = ([], l.glyphs) := by
    obtain ⟨rest, hrest⟩ := List.getLast?_eq_some_iff.mp hlast
    rw [hrest, List.reverse_append, List.reverse_singleton, List.singleton_append, continued,
      hcontinue]
  have hgoOn : r.goOn [] = r := by
    unfold goOn
    simp
  have hmissing : r.frames.length ≠ 0 := by
    intro hzero
    rw [List.eq_nil_of_length_eq_zero hzero] at hlast
    cases hlast
  have hstarted : r.started l r.frames.length l.glyphs = ([], l.glyphs) := by
    unfold started
    simp [hmissing, opened, hopen]
  have hcut : closeFrames r.stop r.frames.length (r.push (r.leaf.close (.cut r.stop))) = r.cut :=
    rfl
  obtain ⟨head, hstart⟩ := htext.ofLine r.leaf
    (m := ⟨r.interrupting && true, true, false⟩) (fun hb => by cases hb) fun _ => Or.inl rfl
  refine ⟨head, ?_⟩
  rw [step_eq]
  simp only [hkept, List.length_nil, Nat.sub_zero, hgoOn, hstarted, place, List.isEmpty_nil,
    if_true, hplaced]
  unfold feed
  simp only [ne_eq, hmissing, not_false_eq_true, decide_true, if_true, Bool.not_false, hstart,
    hlazy, Bool.false_and, Bool.and_self, Start.leaf, Start.isContent, hcut, push_nil, frames_cut]

/-- Where a reader is ready, a line that starts text opens a paragraph behind all that was open. -/
theorem Ready.step (h : r.Ready c) :
    ∃ head, r.step l =
      ⟨r.cut.blocks, [], .content none [l] head, true, l.stop, l.next⟩ := by
  cases h with
  | outside hframes hleaf => exact step_outside htext hchar hplaced hframes hleaf
  | inside hlast hasks hlazy => exact step_inside htext hplaced hlast hasks hlazy

end FirstLine

theorem length_frames_feed_zero (r : Reader) (line : Line) (pierced : Bool) :
    (r.feed line 0 pierced).frames.length = r.frames.length := by
  unfold feed
  simp only [ne_eq, not_true_eq_false, decide_false, Bool.false_eq_true, if_false, Bool.false_and]
  split
  · exact length_frames_push r _
  · exact length_frames_push r _

/-- Containers that start stay open. -/
theorem frames_place_ne_nil {new : List Frame} (hnew : new ≠ []) (line : Line) (missing : Nat)
    (rest : List Glyph) : (r.place line missing new rest).frames ≠ [] := by
  intro hnil
  unfold place at hnil
  rw [if_neg (by simpa using hnew)] at hnil
  have hlength := congrArg List.length hnil
  rw [length_frames_feed_zero, List.length_append, List.length_nil] at hlength
  exact hnew (List.eq_nil_of_length_eq_zero (Nat.eq_zero_of_add_eq_zero hlength).1)

/-- Behind a line no container is open: there was none and the line opens none, or the line belongs
to none of them, and goes on with no paragraph in them. -/
inductive Outside (r : Reader) (l : Line) : Prop where
  | fed : r.frames = [] → r.step l = { r.feed l 0 false with stop := l.stop, next := l.next } →
      Outside r l
  | left {f : Frame} {s : Start} :
    r.frames.getLast? = some f → f.container.continue? l.glyphs = none →
      Start.ofLine r.leaf ⟨r.interrupting, true, false⟩ l = s →
      (r.leaf.acceptsLazy && s.isContent) = false →
      r.step l =
        ⟨(s.leaf l).1.reverse ++ r.cut.blocks, [], (s.leaf l).2, s.isContent, l.stop, l.next⟩ →
      Outside r l

/-- What a line has done behind which no container is open. -/
theorem outside_of_step (hplaced : l.cutTo l.glyphs = l) (hafter : (r.step l).frames = []) :
    Outside r l := by
  by_cases hframes : r.frames = []
  · refine .fed hframes ?_
    rw [step_root hframes] at hafter ⊢
    by_cases hnew : (r.started l 0 l.glyphs).1 = []
    · rw [started_eq_nil hnew]
      simp only [place, List.isEmpty_nil, if_true, hplaced]
    · exact absurd hafter (frames_place_ne_nil hnew l 0 _)
  · have hlengthKept := length_continued_le r.frames.reverse l.glyphs
    have hpositive := List.length_pos_iff.mpr hframes
    rw [List.length_reverse] at hlengthKept
    have hstep := step_eq r l
    rw [hstep] at hafter
    generalize hcontinued : continued r.frames.reverse l.glyphs = found at *
    obtain ⟨kept, rest⟩ := found
    dsimp only at hafter hstep hlengthKept
    have hlength : (r.goOn kept).frames.length = r.frames.length := by
      simp only [goOn, List.length_append, List.length_take, List.length_reverse]
      omega
    by_cases hnew : (r.started l (r.frames.length - kept.length) rest).1 = []
    · rw [started_eq_nil hnew] at hafter hstep
      simp only [place, List.isEmpty_nil, if_true] at hafter hstep
      by_cases hmissing : r.frames.length - kept.length = 0
      · -- all containers go on, and stay open
        rw [hmissing] at hafter
        have hlen := congrArg List.length hafter
        rw [length_frames_feed_zero, hlength, List.length_nil] at hlen
        omega
      · unfold feed at hafter hstep
        simp only [ne_eq, hmissing, not_false_eq_true, decide_true, if_true, Bool.true_and]
          at hafter hstep
        split at hafter
        · next hlazy =>
          rw [if_pos hlazy] at hstep
          -- none of the containers goes on
          have hlen := congrArg List.length hafter
          rw [length_frames_push, length_frames_closeFrames, length_frames_push, hlength,
            List.length_nil] at hlen
          obtain rfl : kept = [] := List.eq_nil_of_length_eq_zero (by omega)
          have hgoOn : r.goOn [] = r := by
            unfold goOn
            simp
          obtain ⟨f, fs, hreverse⟩ : ∃ f fs, r.frames.reverse = f :: fs :=
            List.exists_cons_of_ne_nil (by simpa using hframes)
          have hstops : f.container.continue? l.glyphs = none ∧ rest = l.glyphs := by
            rw [hreverse, continued] at hcontinued
            split at hcontinued
            · next hnone => exact ⟨hnone, (congrArg Prod.snd hcontinued).symm⟩
            · cases hcontinued
          obtain ⟨hstops, rfl⟩ := hstops
          have hlast : r.frames.getLast? = some f := by
            rw [← List.head?_reverse, hreverse]
            rfl
          have hcut : closeFrames r.stop r.frames.length (r.push (r.leaf.close (.cut r.stop))) =
              r.cut := rfl
          simp only [hgoOn, hplaced, List.length_nil, Nat.sub_zero, Bool.not_false,
            Bool.and_true, hcut] at hlazy hstep
          refine .left hlast hstops rfl (by rwa [Bool.not_eq_true'] at hlazy) ?_
          rw [hstep]
          simp only [push, frames_cut]
        · have hlen := congrArg List.length hafter
          rw [length_frames_push, hlength, List.length_nil] at hlen
          omega
    · rw [hstep] at *
      exact absurd hafter (frames_place_ne_nil hnew l _ _)

/-- A reader that has just read the first line of a paragraph. The line may look like an underline
when it comes behind an underlined heading. -/
structure OpenedBy (r after : Reader) (l : Line) : Prop where
  frames : after.frames = []
  blocks : after.blocks = r.cut.blocks
  leaf : (∃ head g, after.leaf = .content none [l] head ∧ after.interrupting = true ∧
      l.glyphs.head? = some g ∧ r.Ready g.char) ∨
    after.leaf = .content (some l) [] none ∧ isUnderline l.glyphs = true

theorem exists_head?_of_ofLine {leaf : Leaf} {m : Meeting} {head : Option Nat}
    (h : Start.ofLine leaf m l = .content head) : ∃ g, l.glyphs.head? = some g := by
  cases hhead : l.glyphs.head? with
  | some g => exact ⟨g, rfl⟩
  | none => simp [Start.ofLine, hhead] at h

theorem givesWay_of_ofLine {m : Meeting} {head : Option Nat} {g : Glyph}
    (hm : m.lazy = false ∧ m.pierced = false) (hstart : Start.ofLine r.leaf m l = .content head)
    (hhead : l.glyphs.head? = some g) (htext : r.leaf.isText = false)
    (htaken : r.leaf.continue? l false = none) : r.leaf.givesWay g.char = true := by
  cases hleaf : r.leaf with
  | none => rfl
  | underlined => rfl
  | indented start stop value waiting => rfl
  | table start stop rows =>
    rw [hleaf] at hstart
    exact Start.isMarker_of_ofLine hm hstart g hhead
  | content lead lines head => rw [hleaf] at htext; cases htext
  | fence o value ending =>
    rw [hleaf] at htaken
    unfold Leaf.continue? at htaken
    dsimp only at htaken
    split at htaken <;> cases htaken
  | html kind start =>
    rw [hleaf] at htaken
    unfold Leaf.continue? at htaken
    dsimp only at htaken
    split at htaken
    · next hblank =>
      rw [Bool.and_eq_true] at hblank
      rw [Start.ofLine_of_isBlank hblank.1] at hstart
      cases hstart
    · split at htaken <;> cases htaken

/-- A container that asks for nothing takes every line that is not blank. -/
theorem isOpenEnded_eq_false {c : Container} {gs : List Glyph} (h : c.continue? gs = none)
    (hblank : gs.all Glyph.isSpace = false) : c.isOpenEnded = false := by
  unfold Container.isOpenEnded
  split
  · simp [Container.continue?, hblank, Container.takeIndent?, Glyph.cutSpaces] at h
  · rfl

/-- **The first line of a paragraph** outside of all containers is told by what the reader has
become: the reader was ready for it, and all that was open has come to its end. -/
theorem openedBy_of_step (hplaced : l.cutTo l.glyphs = l)
    (hnot : ¬ (r.frames = [] ∧ r.leaf.isText = true)) (hafter : (r.step l).frames = [])
    (htext : (r.step l).leaf.isText = true) : OpenedBy r (r.step l) l := by
  cases outside_of_step hplaced hafter with
  | fed hframes hstep =>
    have hleaf : r.leaf.isText = false := by
      cases h : r.leaf.isText with
      | false => rfl
      | true => exact absurd ⟨hframes, h⟩ hnot
    have hcut : r.cut.blocks = (r.leaf.close (.cut r.stop)).reverse ++ r.blocks := by
      unfold cut push
      rw [hframes]
      rfl
    rw [hstep] at htext ⊢
    unfold feed at htext ⊢
    simp only [ne_eq, not_true_eq_false, decide_false, Bool.false_eq_true, if_false,
      Bool.not_false, Bool.and_true, Bool.false_and] at htext ⊢
    cases htaken : r.leaf.continue? l false with
    | some result =>
      rw [htaken] at htext
      rw [Leaf.isText_continue? htaken] at htext
      cases htext
    | none =>
      rw [htaken] at htext
      dsimp only at htext ⊢
      generalize hs : Start.ofLine r.leaf ⟨r.interrupting, false, false⟩ l = s at htext ⊢
      obtain ⟨hmeet, hbecomes⟩ := Leaf.meet_of_isText hleaf htext
      rw [hmeet]
      refine ⟨by simp [push, hframes], by simp [push, hframes, hcut], ?_⟩
      rcases (Start.leaf_of_isText hbecomes).2 with ⟨head, rfl, hcontent⟩ | ⟨rfl, hcontent⟩
      · obtain ⟨g, hhead⟩ := exists_head?_of_ofLine hs
        have hgives := givesWay_of_ofLine ⟨rfl, rfl⟩ hs hhead hleaf htaken
        exact Or.inl ⟨head, g, hcontent, rfl, hhead, .outside hframes hgives⟩
      · exact Or.inr ⟨hcontent, (Start.acceptsLazy_of_ofLine hs).2.2⟩
  | @left f s hlast hstops hs hlazy hstep =>
    rw [hstep] at htext ⊢
    obtain ⟨hnone, hleaf⟩ := Start.leaf_of_isText htext
    refine ⟨rfl, by rw [hnone]; rfl, ?_⟩
    rcases hleaf with ⟨head, rfl, hcontent⟩ | ⟨rfl, hcontent⟩
    · obtain ⟨g, hhead⟩ := exists_head?_of_ofLine hs
      have hblank : l.glyphs.all Glyph.isSpace = false := by
        cases hall : l.glyphs.all Glyph.isSpace with
        | false => rfl
        | true =>
          rw [Start.ofLine_of_isBlank hall] at hs
          cases hs
      have hacceptsLazy : r.leaf.acceptsLazy = false := by
        simpa [Start.isContent] using hlazy
      exact Or.inl ⟨head, g, hcontent, rfl, hhead,
        .inside hlast (isOpenEnded_eq_false hstops hblank) hacceptsLazy⟩
    · have hunder := Start.acceptsLazy_of_ofLine hs
      cases hunder.2.1

/-! ## What comes out of a step -/

/-- A reader gets blocks outside of all containers on its way, and all of them have a property. -/
def Adds (P : Block → Prop) (r after : Reader) : Prop :=
  ∃ bs, after.blocks = bs ++ r.blocks ∧ ∀ b ∈ bs, P b

section Adds

variable {P : Block → Prop} {after later : Reader}

theorem Adds.refl (r : Reader) : Adds P r r := ⟨[], rfl, fun _ hb => absurd hb List.not_mem_nil⟩

theorem Adds.trans (h : Adds P r after) (h' : Adds P after later) : Adds P r later := by
  obtain ⟨bs, hbs, hall⟩ := h
  obtain ⟨cs, hcs, hall'⟩ := h'
  refine ⟨cs ++ bs, by rw [hcs, hbs, List.append_assoc], ?_⟩
  intro b hb
  rcases List.mem_append.mp hb with hb | hb
  · exact hall' b hb
  · exact hall b hb

theorem Adds.congr (h : Adds P r after) (hsame : later.blocks = after.blocks) : Adds P r later := by
  unfold Adds
  rw [hsame]
  exact h

theorem adds_push (bs : List Block) (h : r.frames = [] → ∀ b ∈ bs, P b) : Adds P r (r.push bs) := by
  unfold push
  split
  · next hframes => exact ⟨bs.reverse, rfl, fun b hb => h hframes b (List.mem_reverse.mp hb)⟩
  · exact ⟨[], rfl, fun b hb => absurd hb List.not_mem_nil⟩

variable (hcontainer : ∀ c span children, P (.container c span children))

include hcontainer

theorem adds_closeFrames (r : Reader) (stop count : Nat) : Adds P r (r.closeFrames stop count) := by
  induction count generalizing r with
  | zero => exact .refl r
  | succ count ih =>
    unfold closeFrames
    split
    · exact .refl r
    · next f frames _ =>
      have hpush : Adds P { r with frames } (push { r with frames }
          [.container f.container ⟨f.start, stop⟩ f.blocks.reverse]) :=
        adds_push _ fun _ b hb => by rw [List.mem_singleton.mp hb]; exact hcontainer _ _ _
      obtain ⟨bs, hbs, hall⟩ := hpush.trans (ih _)
      exact ⟨bs, hbs, hall⟩

theorem adds_feed {line : Line} {missing : Nat}
    (hleaf : r.frames = [] → r.leaf.Gives P r.stop r.next line)
    (hstart : r.frames.length ≤ missing → ∀ s, ∀ b ∈ (Start.leaf s line).1, P b)
    (pierced : Bool) : Adds P r (r.feed line missing pierced) := by
  unfold feed
  dsimp only
  split
  · next bs leaf htaken =>
    refine (adds_push bs fun hframes => ?_).congr rfl
    split at htaken
    · cases htaken
    · exact (hleaf hframes).taken _ _ _ htaken
  · split
    · have hclose : Adds P r (r.push (r.leaf.close (.cut r.stop))) :=
        adds_push _ fun hframes => (hleaf hframes).cut
      have hclosed := hclose.trans (adds_closeFrames hcontainer _ r.stop missing)
      refine (hclosed.trans (adds_push _ fun hframes => hstart ?_ _)).congr rfl
      have hlength := congrArg List.length hframes
      rw [length_frames_closeFrames, length_frames_push, List.length_nil] at hlength
      omega
    · exact (adds_push _ fun hframes => (hleaf hframes).meet _).congr rfl

/-- What comes out of a step, when the line and the leaf make nothing else. -/
theorem adds_step (hplaced : l.cutTo l.glyphs = l)
    (hleaf : r.frames = [] → r.leaf.Gives P r.stop r.next l)
    (hstart : ∀ s, ∀ b ∈ (Start.leaf s l).1, P b) : Adds P r (r.step l) := by
  have hlengthKept := length_continued_le r.frames.reverse l.glyphs
  rw [List.length_reverse] at hlengthKept
  rw [step_eq]
  generalize hcontinued : continued r.frames.reverse l.glyphs = found at *
  obtain ⟨kept, rest⟩ := found
  dsimp only at hlengthKept ⊢
  have hlength : (r.goOn kept).frames.length = r.frames.length := by
    simp only [goOn, List.length_append, List.length_take, List.length_reverse]
    omega
  have hnil : (r.goOn kept).frames = [] → r.frames = [] := by
    intro hframes
    rw [hframes, List.length_nil] at hlength
    exact List.eq_nil_of_length_eq_zero hlength.symm
  -- a line that no container takes anything off is fed as it is
  have hwhole : kept = [] → rest = l.glyphs := by
    rintro rfl
    cases hreverse : r.frames.reverse with
    | nil =>
      rw [hreverse] at hcontinued
      exact (congrArg Prod.snd hcontinued).symm
    | cons f fs =>
      rw [hreverse, continued] at hcontinued
      split at hcontinued
      · exact (congrArg Prod.snd hcontinued).symm
      · cases hcontinued
  have hgoOn : Adds P r (r.goOn kept) := ⟨[], rfl, fun b hb => absurd hb List.not_mem_nil⟩
  suffices hplace : Adds P (r.goOn kept) ((r.goOn kept).place l (r.frames.length - kept.length)
      (r.started l (r.frames.length - kept.length) rest).1
      (r.started l (r.frames.length - kept.length) rest).2) from (hgoOn.trans hplace).congr rfl
  by_cases hnew : (r.started l (r.frames.length - kept.length) rest).1 = []
  · rw [started_eq_nil hnew]
    unfold place
    simp only [List.isEmpty_nil, if_true]
    refine adds_feed hcontainer (fun hframes => ?_) (fun hle => ?_) false
    · have hzero := hnil hframes
      rw [hzero, List.length_nil] at hlengthKept
      rw [hwhole (List.eq_nil_of_length_eq_zero (Nat.le_zero.mp hlengthKept)), hplaced]
      exact hleaf hzero
    · by_cases hkept : kept = []
      · rw [hwhole hkept, hplaced]
        exact hstart
      · have hpositive := List.length_pos_iff.mpr hkept
        rw [hlength] at hle
        omega
  · unfold place
    rw [if_neg (by simpa using hnew)]
    have hpush : Adds P (r.goOn kept) ((r.goOn kept).push
        ((r.goOn kept).leaf.close (.flushed r.stop r.next))) :=
      adds_push _ fun hframes => (hleaf (hnil hframes)).flushed
    have hflush : Adds P (r.goOn kept) ((r.goOn kept).flush (r.frames.length - kept.length)) :=
      (hpush.congr rfl).trans (adds_closeFrames hcontainer _ _ _)
    refine (hflush.congr rfl).trans (adds_feed hcontainer (fun hframes => ?_) (fun hle => ?_) true)
    · exact absurd (List.append_eq_nil_iff.mp hframes).1 hnew
    · exact absurd
        (List.append_eq_nil_iff.mp (List.eq_nil_of_length_eq_zero (Nat.le_zero.mp hle))).1
        hnew

end Adds

/-- A paragraph comes out of a step only when the reader was in the middle of one. -/
theorem adds_no_paragraph (hplaced : l.cutTo l.glyphs = l)
    (h : ¬ (r.frames = [] ∧ r.leaf.isText = true)) :
    Adds (fun b => b.isParagraph = false) r (r.step l) := by
  refine adds_step (fun _ _ _ => rfl) hplaced (fun hframes => ?_) fun s => s.isParagraph_leaf l
  have hleaf : r.leaf.isText = false := by
    cases htext : r.leaf.isText with
    | false => rfl
    | true => exact absurd ⟨hframes, htext⟩ h
  exact ⟨r.leaf.isParagraph_close hleaf _, r.leaf.isParagraph_close hleaf _,
    fun _ _ _ htaken => Leaf.isParagraph_continue? hleaf htaken,
    fun s => r.leaf.isParagraph_meet hleaf s l r.stop⟩

end Reader

/-! ## Where code stops -/

/-- A block is no code, or its code does not stop behind a place. -/
def Block.StopsBy (n : Nat) (b : Block) : Prop := ∀ span, b.mark = .code span → span.stop ≤ n

theorem Block.StopsBy.mono {n m : Nat} {b : Block} (h : b.StopsBy n) (hle : n ≤ m) : b.StopsBy m :=
  fun span hspan => Nat.le_trans (h span hspan) hle

namespace Content

theorem isDefinition_of_mem_definitions {fuel : Nat} {gs : List Glyph} {b : Block}
    (h : b ∈ (definitions fuel gs).1) : b.mark = .element .definition := by
  induction fuel generalizing gs with
  | zero => cases h
  | succ fuel ih =>
    unfold definitions at h
    split at h
    · cases h
    · rcases List.mem_cons.mp h with rfl | h
      · rfl
      · exact ih h

/-- A paragraph holds no code blocks. -/
theorem exists_element_of_mem_parts {lead : Option Line} {lines : List Line} {b : Block}
    (h : b ∈ (parts lead lines).1) : ∃ e, b.mark = .element e := by
  unfold parts at h
  dsimp only at h
  split at h
  · exact ⟨_, isDefinition_of_mem_definitions h⟩
  · split at h
    · cases h
    · split at h
      · cases h
      · rcases List.mem_cons.mp h with rfl | h
        · exact ⟨_, rfl⟩
        · exact ⟨_, isDefinition_of_mem_definitions h⟩

theorem exists_element_of_mem_blocks {lead : Option Line} {lines : List Line} {b : Block}
    (h : b ∈ blocks lead lines) : ∃ e, b.mark = .element e := by
  unfold blocks at h
  dsimp only at h
  split at h
  · exact exists_element_of_mem_parts h
  · rcases List.mem_append.mp h with h | h
    · exact exists_element_of_mem_parts h
    · rw [List.mem_singleton.mp h]
      exact ⟨_, rfl⟩

end Content

section StopsBy

variable {n stop next : Nat} {l : Line}

theorem stopsBy_of_element {b : Block} (h : ∃ e, b.mark = .element e) : b.StopsBy n := by
  obtain ⟨e, he⟩ := h
  intro span hspan
  rw [he] at hspan
  cases hspan

theorem Start.stopsBy_leaf (hline : l.stop ≤ n) (s : Start) : ∀ b ∈ (s.leaf l).1, b.StopsBy n := by
  intro b hb span hspan
  cases s with
  | indented rest single =>
    cases single with
    | false => cases hb
    | true =>
      rw [List.mem_singleton.mp hb] at hspan
      cases hspan
      exact hline
  | html kind =>
    unfold Start.leaf at hb
    dsimp only at hb
    split at hb
    · rw [List.mem_singleton.mp hb] at hspan
      cases hspan
    · cases hb
  | heading text =>
    rw [List.mem_singleton.mp hb] at hspan
    cases hspan
  | thematicBreak =>
    rw [List.mem_singleton.mp hb] at hspan
    cases hspan
  | _ => cases hb

/-- Indented code that is open does not stop behind a place so far. -/
def Leaf.StopsBy (n : Nat) (leaf : Leaf) : Prop :=
  ∀ start stop value waiting, leaf = .indented start stop value waiting → stop ≤ n

theorem Leaf.stopsBy_close {leaf : Leaf} {c : Closing} (hleaf : leaf.StopsBy n)
    (hstop : leaf.endAt c ≤ n) : ∀ b ∈ leaf.close c, b.StopsBy n := by
  intro b hb span hspan
  cases leaf with
  | content lead lines head =>
    exact stopsBy_of_element (Content.exists_element_of_mem_blocks hb) span hspan
  | fence o value ending =>
    cases c with
    | cut stop =>
      rw [List.mem_singleton.mp hb] at hspan
      cases hspan
      exact hstop
    | flushed stop next =>
      rw [List.mem_singleton.mp hb] at hspan
      cases hspan
      exact hstop
  | indented start last value waiting =>
    rw [List.mem_singleton.mp hb] at hspan
    cases hspan
    exact hleaf _ _ _ _ rfl
  | html kind start =>
    rw [List.mem_singleton.mp hb] at hspan
    cases hspan
  | table start last rows =>
    rw [List.mem_singleton.mp hb] at hspan
    cases hspan
  | none => cases hb
  | underlined => cases hb

theorem Leaf.endAt_le (leaf : Leaf) (hstop : stop ≤ n) (hnext : next ≤ n) :
    leaf.endAt (.cut stop) ≤ n ∧ leaf.endAt (.flushed stop next) ≤ n := by
  refine ⟨hstop, ?_⟩
  cases leaf with
  | fence o value ending => exact hnext
  | html kind start =>
    unfold Leaf.endAt
    dsimp only
    split
    · exact hstop
    · exact hnext
  | _ => exact hstop

theorem Leaf.stopsBy_continue? {leaf after : Leaf} {pierced : Bool} {bs : List Block}
    (hline : l.stop ≤ n) (htaken : leaf.continue? l pierced = some (bs, after)) :
    ∀ b ∈ bs, b.StopsBy n := by
  have hnone : ∀ b ∈ ([] : List Block), b.StopsBy n := fun b hb => absurd hb List.not_mem_nil
  cases leaf with
  | fence o value ending =>
    unfold Leaf.continue? at htaken
    dsimp only at htaken
    split at htaken
    · obtain ⟨rfl, -⟩ := Prod.mk.inj (Option.some.inj htaken)
      intro b hb span hspan
      rw [List.mem_singleton.mp hb] at hspan
      cases hspan
      exact hline
    · obtain ⟨rfl, -⟩ := Prod.mk.inj (Option.some.inj htaken)
      exact hnone
  | html kind start =>
    unfold Leaf.continue? at htaken
    dsimp only at htaken
    split at htaken
    · cases htaken
    · split at htaken
      · obtain ⟨rfl, -⟩ := Prod.mk.inj (Option.some.inj htaken)
        intro b hb span hspan
        rw [List.mem_singleton.mp hb] at hspan
        cases hspan
      · obtain ⟨rfl, -⟩ := Prod.mk.inj (Option.some.inj htaken)
        exact hnone
  | indented start last value waiting =>
    unfold Leaf.continue? at htaken
    dsimp only at htaken
    split at htaken
    · cases htaken
    · split at htaken
      · obtain ⟨rfl, -⟩ := Prod.mk.inj (Option.some.inj htaken)
        exact hnone
      · split at htaken
        · obtain ⟨rfl, -⟩ := Prod.mk.inj (Option.some.inj htaken)
          exact hnone
        · cases htaken
  | content lead lines head =>
    unfold Leaf.continue? at htaken
    split at htaken
    · next hleaf => cases hleaf
    · next hleaf => cases hleaf
    · next hleaf => cases hleaf
    · split at htaken
      · obtain ⟨rfl, -⟩ := Prod.mk.inj (Option.some.inj htaken)
        exact fun b hb => stopsBy_of_element (Content.exists_element_of_mem_blocks hb)
      · cases htaken
    · cases htaken
  | none => cases htaken
  | underlined => cases htaken
  | table start last rows => cases htaken

theorem Leaf.stopsBy_meet {leaf : Leaf} (hleaf : leaf.StopsBy n) (hstop : stop ≤ n)
    (hline : l.stop ≤ n) (s : Start) :
    ∀ b ∈ (leaf.meet s l stop).1, b.StopsBy n := by
  have hboth : ∀ b ∈ leaf.close (.cut stop) ++ (s.leaf l).1, b.StopsBy n := by
    intro b hb
    rcases List.mem_append.mp hb with hb | hb
    · exact leaf.stopsBy_close hleaf (c := .cut stop) hstop b hb
    · exact s.stopsBy_leaf hline b hb
  cases leaf with
  | content lead lines head =>
    cases s with
    | content after => exact fun b hb => absurd hb List.not_mem_nil
    | underline =>
      have hparts := @Content.exists_element_of_mem_parts lead lines
      unfold Leaf.meet
      dsimp only
      split
      · next defs hdefs =>
        intro b hb
        refine stopsBy_of_element (hparts ?_)
        rw [hdefs]
        exact hb
      · next defs g text hdefs =>
        intro b hb
        rcases List.mem_append.mp hb with hb | hb
        · refine stopsBy_of_element (hparts ?_)
          rw [hdefs]
          exact hb
        · rw [List.mem_singleton.mp hb]
          exact stopsBy_of_element ⟨_, rfl⟩
    | _ => exact hboth
  | table start last rows =>
    cases s with
    | row => exact fun b hb => absurd hb List.not_mem_nil
    | _ => exact hboth
  | _ => exact hboth

theorem Start.leaf_stopsBy (hline : l.stop ≤ n) (s : Start) :
    (s.leaf l).2.StopsBy n := by
  intro start stop value waiting hleaf
  cases s with
  | indented rest single =>
    cases single with
    | false =>
      cases hleaf
      exact hline
    | true => cases hleaf
  | html kind =>
    unfold Start.leaf at hleaf
    dsimp only at hleaf
    split at hleaf <;> cases hleaf
  | _ => cases hleaf

theorem Leaf.continue?_stopsBy {leaf after : Leaf}
    {pierced : Bool} {bs : List Block} (hleaf : leaf.StopsBy n) (hline : l.stop ≤ n)
    (htaken : leaf.continue? l pierced = some (bs, after)) : after.StopsBy n := by
  intro start stop value waiting hafter
  subst hafter
  unfold Leaf.continue? at htaken
  grind [Leaf.StopsBy]

theorem Leaf.meet_stopsBy {leaf : Leaf} (hline : l.stop ≤ n)
    (s : Start) (stop : Nat) : (leaf.meet s l stop).2.StopsBy n := by
  have hstart := s.leaf_stopsBy hline
  have hother : ∀ {after : Leaf}, after.isText = true ∨ after.isTable = true ∨ after = .underlined →
      after.StopsBy n := by
    rintro after h start stop value waiting rfl
    rcases h with h | h | h <;> cases h
  cases leaf with
  | content lead lines head =>
    cases s with
    | content after => exact hother (Or.inl rfl)
    | underline =>
      unfold Leaf.meet
      dsimp only
      split
      · exact hother (Or.inl rfl)
      · exact hother (Or.inr (Or.inr rfl))
    | _ => exact hstart
  | table start last rows =>
    cases s with
    | row => exact hother (Or.inr (Or.inl rfl))
    | _ => exact hstart
  | _ => exact hstart

end StopsBy

namespace Reader

variable {r : Reader} {l : Line}

/-- No code outside of all containers stops behind the lines that were read. -/
structure InOrder (r : Reader) : Prop where
  stop : r.stop ≤ r.next
  leaf : r.frames = [] → r.leaf.StopsBy r.next
  blocks : ∀ b ∈ r.blocks, b.StopsBy r.next

theorem InOrder.step (h : r.InOrder) (hplaced : l.cutTo l.glyphs = l) (hnext : r.next ≤ l.stop)
    (hline : l.stop ≤ l.next) : (r.step l).InOrder := by
  have hle := Nat.le_trans hnext hline
  have hstop := Nat.le_trans h.stop hle
  have hgrows : r.frames = [] → r.leaf.StopsBy l.next :=
    fun hframes start stop value waiting hleaf =>
    Nat.le_trans (h.leaf hframes start stop value waiting hleaf) hle
  have hadds : Adds (Block.StopsBy l.next) r (r.step l) := by
    refine adds_step (fun c span children code hcode => by cases hcode) hplaced (fun hframes => ?_)
      (Start.stopsBy_leaf hline)
    have hleaf := hgrows hframes
    have hends := r.leaf.endAt_le hstop hle
    exact ⟨r.leaf.stopsBy_close hleaf hends.1, r.leaf.stopsBy_close hleaf hends.2,
      fun _ _ _ htaken => Leaf.stopsBy_continue? hline htaken,
      fun s => r.leaf.stopsBy_meet hleaf hstop hline s⟩
  refine ⟨hline, fun hafter => ?_, ?_⟩
  · show (r.step l).leaf.StopsBy l.next
    cases outside_of_step hplaced hafter with
    | fed hframes hstep =>
      rw [hstep]
      unfold feed
      simp only [ne_eq, not_true_eq_false, decide_false, Bool.false_eq_true, if_false,
        Bool.false_and]
      split
      · next htaken => exact Leaf.continue?_stopsBy (hgrows hframes) hline htaken
      · exact Leaf.meet_stopsBy hline _ _
    | left _ _ _ _ hstep =>
      rw [hstep]
      exact Start.leaf_stopsBy hline _
  · obtain ⟨bs, hbs, hall⟩ := hadds
    intro b hb
    rw [hbs] at hb
    rcases List.mem_append.mp hb with hb | hb
    · exact hall b hb
    · exact (h.blocks b hb).mono hle

theorem InOrder.cut (h : r.InOrder) : ∀ b ∈ r.cut.blocks, b.StopsBy r.next := by
  have hpush : Adds (Block.StopsBy r.next) r (r.push (r.leaf.close (.cut r.stop))) :=
    adds_push _ fun hframes => r.leaf.stopsBy_close (h.leaf hframes) (c := .cut r.stop) h.stop
  obtain ⟨bs, hbs, hall⟩ := hpush.trans
    (adds_closeFrames (fun c span children code hcode => by cases hcode) _ r.stop r.frames.length)
  intro b hb
  have hb' : b ∈ bs ++ r.blocks := hbs ▸ hb
  rcases List.mem_append.mp hb' with hb | hb
  · exact hall b hb
  · exact h.blocks b hb

end Reader

end LiveDoc.Markdown
