import LiveDoc.Proofs.Markdown.Margin

/-!
# Where fenced code ends

Fenced code goes on to the line that closes it, to a line that lacks one of its containers, or to
the end of the text (`Outline.exists_restOfFence`).

* All containers around a fence hold something, so they go on as they are
  (`Outline.settle_of_opening`).
* A line that lacks a container ends the fence, and is read as if there had been none
  (`Outline.step_missing`).
* Where no leaf is open, what comes does not depend on the place where the last line ended
  (`Outline.codes_of_none`).
-/

namespace LiveDoc.Markdown

open Text (byteLength)

variable {p : Nat} {o : Outline} {op : FenceOpening} {value : List (List Char)} {ending : List Char}
  {l : Line}

namespace Outline

/-! ## The containers around a fence -/

theorem settle_of_mem_takeFronts {cs : List Container} {H : List Glyph} :
    ∀ c ∈ (takeFronts cs H).1, c.settle = c := by
  induction cs generalizing H with
  | nil => exact fun c hc => absurd hc List.not_mem_nil
  | cons c rest ih =>
    rw [takeFronts]
    cases c.takeFront? H with
    | none => exact fun c hc => absurd hc List.not_mem_nil
    | some front =>
      refine List.forall_mem_cons.mpr ⟨?_, ih⟩
      cases c <;> rfl

theorem settle_of_opened {fuel : Nat} {interrupting : Bool} {cs : List Container} {gs : List Glyph}
    (hcs : ∀ c ∈ cs, c.settle = c)
    (h : (opened fuel interrupting cs gs).2.all Glyph.isSpace = false) :
    ∀ c ∈ (opened fuel interrupting cs gs).1, c.settle = c := by
  induction fuel generalizing interrupting cs gs with
  | zero => exact hcs
  | succ fuel ih =>
    rw [opened] at h ⊢
    cases hopen : Container.open? interrupting gs with
    | none => exact hcs
    | some result =>
      obtain ⟨c, rest⟩ := result
      rw [hopen] at h
      refine ih (List.forall_mem_cons.mpr ⟨Container.settle_of_open? hopen ?_, hcs⟩) h
      -- what is left behind all containers is left behind this one
      rw [Bool.eq_false_iff] at h ⊢
      intro hblank
      refine h (List.all_eq_true.mpr fun g hg => List.all_eq_true.mp hblank g ?_)
      exact (suffix_of_opened fuel false (c :: cs) rest).subset hg

theorem containers_place_opening {missing : Nat} {new : List Container} {rest : List Glyph}
    (h : (o.place l missing new rest).2.leaf = .fence op [] ending) :
    (o.place l missing new rest).2.containers = new ++ o.containers.drop missing := by
  unfold place at h ⊢
  split
  · next hnew =>
    rw [if_pos hnew] at h
    rw [(opensBy_of_feed h).feed, List.isEmpty_iff.mp hnew]
    rfl
  · next hnew =>
    rw [if_neg hnew] at h
    dsimp only at h ⊢
    rw [(opensBy_of_feed h).feed]
    rfl

/-- All containers around a fence hold something. -/
theorem settle_of_opening (h : (o.step l).2.leaf = .fence op [] ending) :
    ∀ c ∈ (o.step l).2.containers, c.settle = c := by
  have hlength := length_continued_le o.containers.reverse l.glyphs
  have hsuffix := suffix_of_continued o.containers.reverse l.glyphs
  rw [List.length_reverse] at hlength
  unfold step at h ⊢
  dsimp only at h ⊢
  cases hcontinued : continued o.containers.reverse l.glyphs with
  | mk kept rest =>
  rw [hcontinued] at hlength hsuffix h
  dsimp only at hlength hsuffix h ⊢
  cases hstarted : o.started (o.containers.length - kept.length) rest with
  | mk new left =>
  rw [hstarted] at h
  dsimp only at h ⊢
  obtain ⟨W, g, ms, rfl, -, hg, -⟩ := exists_place_opening h
  have hsolid := solid_of_isTick hg ms
  have hleft : W ++ g :: ms <:+ rest := by
    have hsuffix := o.suffix_of_started (o.containers.length - kept.length) rest
    rwa [hstarted] at hsuffix
  have hdrop : (o.goOn kept).containers.drop (o.containers.length - kept.length) = kept.reverse :=
    List.drop_left' (by rw [List.length_take]; omega)
  rw [containers_place_opening h, hdrop]
  refine List.forall_mem_append.mpr ⟨?_, ?_⟩
  · -- the containers that the line opens
    unfold started at hstarted
    split at hstarted
    · rw [← (Prod.mk.inj hstarted).1]
      exact fun c hc => absurd hc List.not_mem_nil
    · have hopened := settle_of_opened (List.forall_mem_nil _)
        (by rw [hstarted]; exact hsolid.not_blank W)
      rw [hstarted] at hopened
      exact hopened
  · -- the containers that go on with it
    obtain ⟨front, hfront⟩ := hleft.trans hsuffix
    rw [← hfront, ← List.append_assoc, continued_append hsolid] at hcontinued
    rw [← (Prod.mk.inj hcontinued).1]
    exact fun c hc => settle_of_mem_takeFronts c (List.mem_reverse.mp hc)

/-! ## Lines that lack a container -/

/-- What a line starts where no leaf is open. -/
def startOf (o : Outline) (line : Line) (missing : Nat) (pierced : Bool) : Start :=
  Start.ofLine .none ⟨o.interrupting && !pierced, decide (missing ≠ 0), pierced⟩ line

theorem feed_none (hleaf : o.leaf = .none) (line : Line) (missing : Nat) (pierced : Bool) :
    o.feed line missing pierced = (codesOf ((o.startOf line missing pierced).leaf line).1,
      { o with containers := o.containers.drop missing,
               leaf := ((o.startOf line missing pierced).leaf line).2,
               interrupting := (o.startOf line missing pierced).isContent }) := by
  have htaken : (if missing ≠ 0 then none else Leaf.none.continue? line pierced) = none := by
    split <;> rfl
  unfold feed
  rw [hleaf]
  dsimp only
  rw [htaken]
  dsimp only
  split
  · rfl
  · next hlazy =>
    obtain rfl : missing = 0 := by simpa [Leaf.acceptsLazy] using hlazy
    rfl

theorem feed_missing (hleaf : o.leaf = .fence op value ending) {missing : Nat}
    (hmissing : missing ≠ 0) (line : Line) : o.feed line missing false =
      (op.code o.stop value :: (feed { o with leaf := .none } line missing false).1,
        (feed { o with leaf := .none } line missing false).2) := by
  obtain ⟨cs, leaf, interrupting, stop, next⟩ := o
  obtain rfl : leaf = .fence op value ending := hleaf
  rw [feed_none (o := ⟨cs, .none, interrupting, stop, next⟩) rfl]
  -- a line that lacks a container starts the same behind code as behind nothing
  have hstart : Start.ofLine (.fence op value ending)
    ⟨interrupting && !false, decide (missing ≠ 0), false⟩ line =
      startOf ⟨cs, .none, interrupting, stop, next⟩ line missing false := rfl
  unfold feed
  dsimp only
  rw [if_pos hmissing, hstart]
  simp [hmissing, Leaf.acceptsLazy, Leaf.close, Leaf.endAt]

/-- A line that lacks a container ends the fence that is open before it, and is read as if nothing
had been open. -/
theorem step_missing (hleaf : o.leaf = .fence op value ending) (h : ¬ o.Keeps l) :
    ∃ stop text, (stop = o.stop ∨ stop = o.next) ∧ o.step l =
      (op.code stop text :: (step { o with leaf := .none } l).1,
      (step { o with leaf := .none } l).2) := by
  have hlt := length_continued_le o.containers.reverse l.glyphs
  rw [List.length_reverse] at hlt
  have hmissing : o.containers.length - (continued o.containers.reverse l.glyphs).1.length ≠ 0 := by
    have hne : (continued o.containers.reverse l.glyphs).1.length ≠ o.containers.length := h
    omega
  have hstarted : ∀ missing rest, missing ≠ 0 →
      started { o with leaf := .none } missing rest = o.started missing rest := by
    intro missing rest hne
    unfold started
    simp [hne]
  unfold step
  dsimp only
  rw [hstarted _ _ hmissing]
  generalize o.containers.length - (continued o.containers.reverse l.glyphs).1.length =
    missing at hmissing
  generalize o.started missing (continued o.containers.reverse l.glyphs).2 = started
  obtain ⟨new, rest⟩ := started
  unfold place
  dsimp only
  split
  · refine ⟨o.stop, value, Or.inl rfl, ?_⟩
    rw [feed_missing (o := o.goOn _) hleaf hmissing]
    rfl
  · refine ⟨o.next, ending :: value, Or.inr rfl, ?_⟩
    have hflushed : (o.goOn (continued o.containers.reverse l.glyphs).1).flushed =
        [op.code o.next (ending :: value)] := by
      unfold flushed
      rw [goOn, hleaf]
      rfl
    rw [hflushed]
    rfl

/-! ## Lines behind the code -/

/-- Where nothing is open, what a line does does not depend on the place where the last one
ended. -/
theorem step_of_none {o' : Outline} (hleaf : o.leaf = .none) (hleaf' : o'.leaf = .none)
    (hcs : o'.containers = o.containers) (hinterrupting : o'.interrupting = o.interrupting)
    (l : Line) :
    o'.step l = o.step l := by
  obtain ⟨cs, leaf, interrupting, stop, next⟩ := o
  obtain ⟨cs', leaf', interrupting', stop', next'⟩ := o'
  obtain rfl : cs' = cs := hcs
  obtain rfl : interrupting' = interrupting := hinterrupting
  obtain rfl : leaf = .none := hleaf
  obtain rfl : leaf' = .none := hleaf'
  unfold step
  dsimp only
  generalize cs'.length - (continued cs'.reverse l.glyphs).1.length = missing
  have hstarted : ∀ rest, started ⟨cs', .none, interrupting', stop', next'⟩ missing rest =
      started ⟨cs', .none, interrupting', stop, next⟩ missing rest := fun _ => rfl
  rw [hstarted]
  generalize started _ missing _ = started
  obtain ⟨new, rest⟩ := started
  unfold place
  dsimp only
  split
  · rw [feed_none rfl, feed_none rfl]
    rfl
  · rw [feed_none rfl, feed_none rfl]
    rfl

/-- Where nothing is open, what comes does not depend on the place where the last line ended. -/
theorem codes_of_none {o' : Outline} (hleaf : o.leaf = .none) (hleaf' : o'.leaf = .none)
    (hcs : o'.containers = o.containers) (hinterrupting : o'.interrupting = o.interrupting)
    (ls : List Line) :
    o'.codes ls = o.codes ls := by
  cases ls with
  | nil =>
    have hflushed : ∀ o : Outline, o.leaf = .none → o.codes [] = [] := by
      intro o hleaf
      rw [codes, run, flushed, hleaf]
      rfl
    rw [hflushed o hleaf, hflushed o' hleaf']
  | cons l rest => rw [codes_cons, codes_cons, step_of_none hleaf hleaf' hcs hinterrupting]

/-- An empty line that all containers go on with changes nothing where no leaf is open. -/
theorem step_empty (hleaf : o.leaf = .none) (hcs : ∀ c ∈ o.containers, c.settle = c)
    (hkeeps : (continued o.containers.reverse []).1.length = o.containers.length)
    (ending : List Char) :
    ∃ stop next, o.step (RawLine.lineAt p ⟨[], ending⟩) =
      ([], ⟨o.containers, .none, false, stop, next⟩) := by
  have hcontinued : continued o.containers.reverse [] = (o.containers.reverse, []) := by
    refine Prod.ext ?_ (List.suffix_nil.mp (suffix_of_continued o.containers.reverse []))
    rw [fst_continued (fun c hc => hcs c (List.mem_reverse.mp hc)), hkeeps, ← List.length_reverse,
      List.take_length]
  have hglyphs : (RawLine.lineAt p ⟨[], ending⟩).glyphs = [] := rfl
  have hopened : ∀ interrupting, opened 1 interrupting [] [] = ([], []) := fun interrupting => by
    cases interrupting <;> rfl
  have hgoOn : o.goOn o.containers.reverse = o := by
    simp [goOn]
  unfold step started
  rw [hglyphs, hcontinued]
  dsimp only
  rw [List.length_reverse, Nat.sub_self, hleaf, if_neg (by simp [Leaf.isConcrete]), List.length_nil,
    Nat.zero_add, hopened, hgoOn]
  dsimp only
  unfold place
  rw [if_pos List.isEmpty_nil, feed_none hleaf]
  exact ⟨_, _, rfl⟩

/-- What is left behind a fence that ends at a place in front of a line end. -/
def behindFence (cs : List Container) (stop : Nat) (ending : List Char) : Outline :=
  ⟨cs.map Container.settle, .none, false, stop, stop + byteLength ending⟩

/-- Behind a fence, what comes does not depend on the place where it ended. -/
theorem codes_behindFence (hleaf : o.leaf = .none) (hinterrupting : o.interrupting = false)
    {cs : List Container} (hcs : o.containers = cs.map Container.settle) (stop : Nat)
    (ending : List Char) (ls : List Line) : o.codes ls = (behindFence cs stop ending).codes ls :=
  codes_of_none (o := behindFence cs stop ending) rfl hleaf hcs hinterrupting ls

theorem map_settle {cs : List Container} (h : ∀ c ∈ cs, c.settle = c) :
    cs.map Container.settle = cs :=
  (List.map_congr_left h).trans (List.map_id cs)

/-! ## The lines of a fence -/

/-- What was read when the lines were read that start before a place. -/
def readTo (place : Nat) (o : Outline) : List Line → Outline
  | [] => o
  | l :: rest => if l.start < place then readTo place (o.step l).2 rest else o

theorem readTo_of_le {place : Nat} (h : place ≤ p) (o : Outline) (rs : List RawLine) :
    o.readTo place (linesAt p rs) = o := by
  cases rs with
  | nil => rfl
  | cons r rest => exact if_neg (Nat.not_lt.mpr h)

/-- The line `last` closes the fence that is open. -/
structure ClosedBy (o : Outline) (op : FenceOpening) (last : Line) : Prop where
  leaf : ∃ value ending, o.leaf = .fence op value ending
  keeps : o.Keeps last
  closes : op.closedBy (o.behind last) = true

/-- The rest of a fence that is open behind the line `before`: its lines are `inner`, and it stops
in front of `left`, which is at most a line end. It is closed by its last line, or it is open where
it stops. -/
structure RestOfFence (o : Outline) (p : Nat) (op : FenceOpening) (before : RawLine)
    (inner more : List RawLine) (stop : Nat) (text : List (List Char)) (left : List Char) :
    Prop where
  codes : o.codes (linesAt p (inner ++ more)) = op.code stop text ::
    (behindFence o.containers stop left).codes (linesAt (p + byteLength (flat inner)) more)
  reads : more ≠ [] → ∀ place, p + byteLength (flat inner) < place →
    o.readTo place (linesAt p (inner ++ more)) =
      (behindFence o.containers stop left).readTo place (linesAt (p + byteLength (flat inner)) more)
  place_eq : stop + byteLength left = p + byteLength (flat inner)
  left_eq : left = (inner.getLastD before).ending ∨ left = []
  blank : ∀ r ∈ inner, r.text = [] →
    (continued o.containers.reverse []).1.length = o.containers.length
  ends : (∃ front last after, inner = front ++ [last] ∧ left = last.ending ∧
      o.run (linesAt p front) = ([], after) ∧ after.containers = o.containers ∧
      after.ClosedBy op (last.lineAt (p + byteLength (flat front)))) ∨
    (o.readTo stop (linesAt p (inner ++ more))).leaf.isFence = true

variable {before r : RawLine} {inner more : List RawLine} {stop : Nat} {text : List (List Char)}
variable {left : List Char}

theorem next_lineAt_eq (p : Nat) (r : RawLine) :
    (r.lineAt p).next = p + byteLength r.text + byteLength r.ending := by
  rw [next_lineAt, RawLine.size, RawLine.all, Text.byteLength_append, Nat.add_assoc]

theorem Keeps.continued_nil (h : o.Keeps (r.lineAt p)) (hr : r.text = []) :
    (continued o.containers.reverse []).1.length = o.containers.length := by
  unfold Keeps RawLine.lineAt at h
  rw [hr] at h
  exact h

/-- A fence that the next line closes. -/
theorem restOfFence_closing (hleaf : o.leaf = .fence op value ending)
    (hcs : ∀ c ∈ o.containers, c.settle = c) (hkeeps : o.Keeps (r.lineAt p))
    (hclosed : op.closedBy (o.behind (r.lineAt p)) = true) (before : RawLine)
    (more : List RawLine) :
    o.RestOfFence p op before [r] more (p + byteLength r.text) (ending :: value) r.ending := by
  have hsize : p + byteLength (flat [r]) = p + r.size := by
    rw [flat_cons, flat_nil, List.append_nil, RawLine.size, RawLine.all]
  have hstep := step_closing hleaf hkeeps hclosed
  rw [hkeeps.kept_eq hcs, stop_lineAt, next_lineAt_eq] at hstep
  refine ⟨?_, ?_, ?_, Or.inl rfl, ?_,
    Or.inl ⟨[], r, o, rfl, rfl, rfl, rfl, ⟨_, _, hleaf⟩, hkeeps, hclosed⟩⟩
  · rw [List.singleton_append, linesAt, codes_cons, hstep, behindFence, map_settle hcs, hsize]
    rfl
  · intro _ place hlt
    have hstart : (r.lineAt p).start < place := Nat.lt_of_le_of_lt (Nat.le_add_right p _) hlt
    rw [List.singleton_append, linesAt, readTo, if_pos hstart, hstep, behindFence, map_settle hcs,
      hsize]
  · rw [hsize, RawLine.size, RawLine.all, Text.byteLength_append, Nat.add_assoc]
  · intro s hs hnil
    rw [List.mem_singleton.mp hs] at hnil
    exact hkeeps.continued_nil hnil

/-- A fence that the next line ends, which lacks a container. -/
theorem exists_restOfFence_missing (hleaf : o.leaf = .fence op value ending)
    (hcs : ∀ c ∈ o.containers, c.settle = c) (hinterrupting : o.interrupting = false)
    (hmissing : ¬ o.Keeps (r.lineAt p)) (hstop : o.stop + byteLength before.ending = p)
    (hnext : o.next = p) (more : List RawLine) :
    ∃ stop text left, o.RestOfFence p op before [] (r :: more) stop text left := by
  obtain ⟨stop, text, hplace, hstep⟩ := step_missing hleaf hmissing
  have hnone : ∀ left, (behindFence o.containers stop left).step (r.lineAt p) =
      step { o with leaf := .none } (r.lineAt p) := fun left =>
    step_of_none rfl rfl (map_settle hcs) hinterrupting.symm _
  have hcodes : ∀ left, o.codes (linesAt p (r :: more)) =
      op.code stop text :: (behindFence o.containers stop left).codes (linesAt p (r :: more)) := by
    intro left
    rw [linesAt, codes_cons, codes_cons, hnone, hstep]
    rfl
  have hreads : ∀ left place, p < place → o.readTo place (linesAt p (r :: more)) =
      (behindFence o.containers stop left).readTo place (linesAt p (r :: more)) := by
    intro left place hlt
    have hstart : (r.lineAt p).start < place := hlt
    rw [linesAt, readTo, readTo, if_pos hstart, if_pos hstart, hnone, hstep]
  have hopen : stop ≤ p → (o.readTo stop (linesAt p (r :: more))).leaf.isFence = true := by
    intro hle
    rw [readTo_of_le hle, hleaf]
    rfl
  rcases hplace with rfl | rfl
  · exact ⟨_, text, before.ending, hcodes _, fun _ => hreads _, hstop, Or.inl rfl,
      fun s hs => absurd hs List.not_mem_nil, Or.inr (hopen (hstop ▸ Nat.le_add_right _ _))⟩
  · exact ⟨_, text, [], hcodes _, fun _ => hreads _, hnext, Or.inr rfl,
      fun s hs => absurd hs List.not_mem_nil, Or.inr (hopen (Nat.le_of_eq hnext))⟩

/-- A fence that goes on with a line. -/
theorem RestOfFence.cons
    (h : (o.step (r.lineAt p)).2.RestOfFence (p + r.size) op r inner more stop text left)
    (hleaf : o.leaf = .fence op value ending) (hcs : ∀ c ∈ o.containers, c.settle = c)
    (hkeeps : o.Keeps (r.lineAt p)) (hclosed : op.closedBy (o.behind (r.lineAt p)) = false)
    (before : RawLine) : o.RestOfFence p op before (r :: inner) more stop text left := by
  have hstep := step_inner hleaf hkeeps hclosed
  rw [hkeeps.kept_eq hcs] at hstep
  have hcontainers : (o.step (r.lineAt p)).2.containers = o.containers := by rw [hstep]
  have hsize : ∀ rs, p + byteLength (flat (r :: rs)) = p + r.size + byteLength (flat rs) := by
    intro rs
    rw [flat_cons, ← RawLine.all, Text.byteLength_append, RawLine.size, Nat.add_assoc]
  obtain ⟨hcodes, hreads, hstop, hleft, hblank, hends⟩ := h
  rw [hcontainers] at hcodes hreads hblank hends
  refine ⟨?_, ?_, hstop.trans (hsize inner).symm, ?_, ?_, ?_⟩
  · rw [hsize, List.cons_append, linesAt, codes_cons, hcodes, hstep]
    rfl
  · intro hne place hlt
    have hstart : (r.lineAt p).start < place := Nat.lt_of_le_of_lt (Nat.le_add_right p _) hlt
    rw [hsize] at hlt ⊢
    rw [List.cons_append, linesAt, readTo, if_pos hstart, hreads hne place hlt]
  · rwa [List.getLastD_cons]
  · intro s hs hnil
    rcases List.mem_cons.mp hs with rfl | hs
    · exact hkeeps.continued_nil hnil
    · exact hblank s hs hnil
  · rcases hends with ⟨front, last, after, rfl, rfl, hrun, hafter, hlast⟩ | hopen
    · refine Or.inl ⟨r :: front, last, after, rfl, rfl, ?_, hafter, ?_⟩
      · rw [linesAt, run_cons, hrun, hstep]
        rfl
      · rw [hsize]
        exact hlast
    · refine Or.inr ?_
      rw [List.cons_append, linesAt, readTo]
      split
      · exact hopen
      · rw [hleaf]
        rfl

/-- **The end of a fence.** A fence that is open goes on to a line that closes it, to one that lacks
a container, or to the end of the text. -/
theorem exists_restOfFence (hleaf : o.leaf = .fence op value ending)
    (hcs : ∀ c ∈ o.containers, c.settle = c) (hinterrupting : o.interrupting = false)
    (hstop : o.stop + byteLength before.ending = p) (hnext : o.next = p) (rs : List RawLine) :
    ∃ inner more stop text left, rs = inner ++ more ∧
      o.RestOfFence p op before inner more stop text left := by
  induction rs generalizing o p value ending before with
  | nil =>
    refine ⟨[], [], o.next, ending :: value, [], rfl, ?_, fun hne => absurd rfl hne, hnext,
      Or.inr rfl, fun s hs => absurd hs List.not_mem_nil, Or.inr ?_⟩
    · rw [List.append_nil, linesAt, codes, run, flushed, hleaf]
      rfl
    · rw [List.append_nil, linesAt, readTo, hleaf]
      rfl
  | cons r rest ih =>
    by_cases hkeeps : o.Keeps (r.lineAt p)
    · cases hclosed : op.closedBy (o.behind (r.lineAt p)) with
      | true =>
        exact ⟨[r], rest, _, _, _, rfl, restOfFence_closing hleaf hcs hkeeps hclosed before rest⟩
      | false =>
        have hstep := step_inner hleaf hkeeps hclosed
        rw [hkeeps.kept_eq hcs, stop_lineAt, next_lineAt] at hstep
        have hstop : (o.step (r.lineAt p)).2.stop + byteLength r.ending = p + r.size := by
          rw [hstep, RawLine.size, RawLine.all, Text.byteLength_append, Nat.add_assoc]
        obtain ⟨inner, more, stop, text, left, rfl, hrest⟩ := ih (o := (o.step (r.lineAt p)).2)
          (by rw [hstep]) (by rw [hstep]; exact hcs) (by rw [hstep]) hstop (by rw [hstep])
        exact ⟨r :: inner, more, stop, text, left, rfl, hrest.cons hleaf hcs hkeeps hclosed before⟩
    · obtain ⟨stop, text, left, hrest⟩ :=
        exists_restOfFence_missing hleaf hcs hinterrupting hkeeps hstop hnext rest
      exact ⟨[], r :: rest, stop, text, left, rfl, hrest⟩

/-- The rest of a fence that a line opens. -/
theorem exists_restOfFence_opening (h : (o.step (r.lineAt p)).2.leaf = .fence op [] ending)
    (rs : List RawLine) : ∃ inner more stop text left, rs = inner ++ more ∧
      (o.step (r.lineAt p)).2.RestOfFence (p + r.size) op r inner more stop text left := by
  obtain ⟨H, g, ms, W, hglyphs, -, -, -, hread, hstep⟩ := step_opening h
  have hline := hstep (r.lineAt p) ms op hglyphs hread
  refine exists_restOfFence h (settle_of_opening h) (by rw [hline]) ?_ ?_ rs
  · rw [hline, stop_lineAt, RawLine.size, RawLine.all, Text.byteLength_append, Nat.add_assoc]
  · rw [hline, next_lineAt]

end Outline

end LiveDoc.Markdown
