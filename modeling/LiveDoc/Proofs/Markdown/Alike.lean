import LiveDoc.Proofs.Markdown.Outline
import LiveDoc.Proofs.Markdown.ShiftStep

/-!
# Reading the same lines elsewhere
-/

namespace LiveDoc.Markdown

namespace Outline

/-- The same containers go on with a line that is moved along. -/
theorem continued_shifted (d : Nat) (cs : List Container) (gs : List Glyph) :
    continued cs (shifted d gs) = ((continued cs gs).1, shifted d (continued cs gs).2) := by
  induction cs generalizing gs with
  | nil => rfl
  | cons c rest ih =>
    rw [continued, continued, Container.continue?_shifted]
    cases c.continue? gs with
    | none => rfl
    | some result =>
      obtain ⟨c', left⟩ := result
      simp [ih]

/-- The same containers start. -/
theorem opened_shifted (d fuel : Nat) (interrupting : Bool) (cs : List Container)
    (gs : List Glyph) :
    opened fuel interrupting cs (shifted d gs) =
      ((opened fuel interrupting cs gs).1, shifted d (opened fuel interrupting cs gs).2) := by
  induction fuel generalizing interrupting cs gs with
  | zero => rfl
  | succ fuel ih =>
    rw [opened, opened, Container.open?_shifted]
    cases Container.open? interrupting gs with
    | none => rfl
    | some result =>
      obtain ⟨c, left⟩ := result
      exact ih false (c :: cs) left

end Outline

namespace Reader

/-- A reader `r` that has read the same lines as `v`, but `d` bytes further on, and behind blocks
with the marks `front`, reversed. -/
structure Alike (d : Nat) (front : List Mark) (v r : Reader) : Prop where
  blocks : marks r.blocks = (marks v.blocks).map (Mark.shift d) ++ front
  containers : r.frames.map Frame.container = v.frames.map Frame.container
  leaf : r.leaf = v.leaf.shift d
  interrupting : r.interrupting = v.interrupting
  stop : r.stop = v.stop + d
  next : r.next = v.next + d

namespace Alike

variable {d : Nat} {front : List Mark} {v r : Reader}

theorem length_frames (h : Alike d front v r) : r.frames.length = v.frames.length := by
  have hlength := congrArg List.length h.containers
  simpa only [List.length_map] using hlength

theorem setLeaf (h : Alike d front v r) (leaf : Leaf) (interrupting : Bool) :
    Alike d front { v with leaf, interrupting } { r with leaf := leaf.shift d, interrupting } :=
  ⟨h.blocks, h.containers, rfl, rfl, h.stop, h.next⟩

theorem setPlace (h : Alike d front v r) (stop next : Nat) :
    Alike d front { v with stop, next } { r with stop := stop + d, next := next + d } :=
  ⟨h.blocks, h.containers, h.leaf, h.interrupting, rfl, rfl⟩

theorem setFrames (h : Alike d front v r) {fs gs : List Frame}
    (hcontainers : gs.map Frame.container = fs.map Frame.container) :
    Alike d front { v with frames := fs } { r with frames := gs } :=
  ⟨h.blocks, hcontainers, h.leaf, h.interrupting, h.stop, h.next⟩

theorem push (h : Alike d front v r) {bs cs : List Block} (hmoved : Moved d bs cs) :
    Alike d front (v.push bs) (r.push cs) := by
  obtain ⟨vblocks, vframes, vleaf, vinterrupting, vstop, vnext⟩ := v
  obtain ⟨rblocks, rframes, rleaf, rinterrupting, rstop, rnext⟩ := r
  have hcontainers := h.containers
  dsimp only at hcontainers
  match vframes, rframes with
  | [], [] =>
    refine ⟨?_, rfl, h.leaf, h.interrupting, h.stop, h.next⟩
    show marks (cs.reverse ++ rblocks) = (marks (bs.reverse ++ vblocks)).map (Mark.shift d) ++ front
    rw [marks_append, hmoved.reverse, h.blocks, marks_append, List.map_append, List.append_assoc]
  | f :: fs, g :: gs => exact ⟨h.blocks, hcontainers, h.leaf, h.interrupting, h.stop, h.next⟩
  | [], _ :: _ => cases hcontainers
  | _ :: _, [] => cases hcontainers

theorem closeFrames (h : Alike d front v r) (stop stop' count : Nat) :
    Alike d front (v.closeFrames stop count) (r.closeFrames stop' count) := by
  induction count generalizing v r with
  | zero => exact h
  | succ count ih =>
    have hcontainers := h.containers
    unfold Reader.closeFrames
    cases hv : v.frames with
    | nil =>
      cases hr : r.frames with
      | nil => exact h
      | cons g gs =>
        rw [hv, hr] at hcontainers
        cases hcontainers
    | cons f fs =>
      cases hr : r.frames with
      | nil =>
        rw [hv, hr] at hcontainers
        cases hcontainers
      | cons g gs =>
        rw [hv, hr, List.map_cons, List.map_cons] at hcontainers
        obtain ⟨hc, hrest⟩ := List.cons.inj hcontainers
        refine ih ((h.setFrames hrest).push ?_)
        rw [Moved, marks_cons, marks_cons, Block.mark, Block.mark, hc]
        rfl

theorem closing (h : Alike d front v r) :
    Closing.flushed r.stop r.next = (Closing.flushed v.stop v.next).shift d := by
  rw [Closing.shift, h.stop, h.next]

theorem flush (h : Alike d front v r) (count : Nat) :
    Alike d front (v.flush count) (r.flush count) := by
  have hclose := v.leaf.close_shift d (.flushed v.stop v.next)
  rw [← h.leaf, ← h.closing] at hclose
  exact ((h.push hclose).setLeaf .none false).closeFrames _ _ count

/-- A line is given to the open leaf. -/
theorem feed (h : Alike d front v r) (line : Line) (missing : Nat) (pierced : Bool) :
    Alike d front (v.feed line missing pierced) (r.feed (line.shift d) missing pierced) := by
  have hmeeting : (⟨r.interrupting && !pierced, decide (missing ≠ 0), pierced⟩ : Meeting) =
      ⟨v.interrupting && !pierced, decide (missing ≠ 0), pierced⟩ := by
    rw [h.interrupting]
  unfold Reader.feed
  dsimp only
  rw [hmeeting, h.leaf, Start.ofLine_shift, Leaf.acceptsLazy_shift, Start.isContent_shift, h.stop]
  generalize hs : Start.ofLine v.leaf ⟨v.interrupting && !pierced, decide (missing ≠ 0), pierced⟩
    line = s
  -- the line is taken as it is, by both leaves or by none
  have htaken : ((if missing ≠ 0 then none else v.leaf.continue? line pierced) =
        none ∧ (if missing ≠ 0 then none
          else (v.leaf.shift d).continue? (line.shift d) pierced) = none) ∨
      ∃ bs cs next, (if missing ≠ 0 then none else v.leaf.continue? line pierced) =
          some (bs, next) ∧
        (if missing ≠ 0 then none
          else (v.leaf.shift d).continue? (line.shift d) pierced) = some (cs, next.shift d) ∧
        Moved d bs cs := by
    split
    · exact Or.inl ⟨rfl, rfl⟩
    · exact Leaf.continue?_shift d v.leaf line pierced
  rcases htaken with ⟨hv, hr⟩ | ⟨bs, cs, next, hv, hr, hmoved⟩
  · rw [hv, hr]
    dsimp only
    split
    · obtain ⟨hblocks, hnext⟩ := s.leaf_shift d line
      have hclose := v.leaf.close_shift d (.cut v.stop)
      rw [hnext]
      exact (((h.push hclose).closeFrames v.stop (v.stop + d) missing).push hblocks).setLeaf _ _
    · obtain ⟨hblocks, hnext⟩ := v.leaf.meet_shift d s line v.stop
      rw [hnext]
      exact (h.push hblocks).setLeaf _ _
  · rw [hv, hr]
    exact (h.push hmoved).setLeaf next false

theorem goOn (h : Alike d front v r) {kept kept' : List Frame}
    (hkept : kept'.map Frame.container = kept.map Frame.container) :
    Alike d front (v.goOn kept) (r.goOn kept') := by
  have hlength := congrArg List.length hkept
  rw [List.length_map, List.length_map] at hlength
  refine h.setFrames ?_
  rw [List.map_append, List.map_append, List.map_take, List.map_take, h.containers,
    h.length_frames, hlength, List.map_reverse, List.map_reverse, hkept]

theorem place (h : Alike d front v r) (line : Line) (missing : Nat) {new new' : List Frame}
    (hnew : new'.map Frame.container = new.map Frame.container) (rest : List Glyph) :
    Alike d front (v.place line missing new rest)
      (r.place (line.shift d) missing new' (shifted d rest)) := by
  have hempty : new'.isEmpty = new.isEmpty := by
    have hlength := congrArg List.length hnew
    rw [List.length_map, List.length_map] at hlength
    rw [Bool.eq_iff_iff, List.isEmpty_iff_length_eq_zero, List.isEmpty_iff_length_eq_zero, hlength]
  unfold Reader.place
  rw [hempty, Line.cutTo_shift]
  split
  · exact h.feed _ _ _
  · have hflush := h.flush missing
    refine (hflush.setFrames ?_).feed _ _ _
    rw [List.map_append, List.map_append, hnew, hflush.containers]

/-- **A line that is moved along makes the same of readers that are alike.** -/
theorem step (h : Alike d front v r) (line : Line) :
    Alike d front (v.step line) (r.step (line.shift d)) := by
  -- the containers that go on, and those that start, only depend on the open containers
  have hkept : (continued r.frames.reverse (line.shift d).glyphs).1.map Frame.container =
        (continued v.frames.reverse line.glyphs).1.map Frame.container ∧
      (continued r.frames.reverse (line.shift d).glyphs).2 =
        shifted d (continued v.frames.reverse line.glyphs).2 := by
    have hr := continued_map r.frames.reverse (line.shift d).glyphs
    rw [List.map_reverse, h.containers, ← List.map_reverse, Outline.continued_shifted,
      continued_map] at hr
    exact ⟨(congrArg Prod.fst hr).symm, (congrArg Prod.snd hr).symm⟩
  have hstarted : ∀ (missing : Nat) (rest : List Glyph),
      (r.started (line.shift d) missing (shifted d rest)).1.map Frame.container =
          (v.started line missing rest).1.map Frame.container ∧
        (r.started (line.shift d) missing (shifted d rest)).2 =
          shifted d (v.started line missing rest).2 := by
    intro missing rest
    have hr := r.started_map (line.shift d) missing (shifted d rest)
    have hv := v.started_map line missing rest
    have hsame : r.outline.started missing (shifted d rest) =
        ((v.outline.started missing rest).1, shifted d (v.outline.started missing rest).2) := by
      have hleaf : r.outline.leaf.isConcrete = v.outline.leaf.isConcrete := by
        show r.leaf.isConcrete = v.leaf.isConcrete
        rw [h.leaf, Leaf.isConcrete_shift]
      have hinterrupting : r.outline.interrupting = v.outline.interrupting := h.interrupting
      unfold Outline.started
      rw [hleaf, hinterrupting, length_shifted]
      split
      · rfl
      · exact Outline.opened_shifted d _ _ [] rest
    rw [hsame, hv] at hr
    exact ⟨(congrArg Prod.fst hr).symm, (congrArg Prod.snd hr).symm⟩
  obtain ⟨hcontainers, hrest⟩ := hkept
  have hmissing : r.frames.length - (continued r.frames.reverse (line.shift d).glyphs).1.length =
      v.frames.length - (continued v.frames.reverse line.glyphs).1.length := by
    have hlength := congrArg List.length hcontainers
    rw [List.length_map, List.length_map] at hlength
    rw [h.length_frames, hlength]
  rw [step_eq, step_eq]
  dsimp only
  rw [hmissing, hrest]
  obtain ⟨hnew, hleft⟩ := hstarted
    (v.frames.length - (continued v.frames.reverse line.glyphs).1.length)
    (continued v.frames.reverse line.glyphs).2
  have hplace := (h.goOn hcontainers).place line
    (v.frames.length - (continued v.frames.reverse line.glyphs).1.length) hnew
    (v.started line (v.frames.length - (continued v.frames.reverse line.glyphs).1.length)
      (continued v.frames.reverse line.glyphs).2).2
  rw [hleft, Line.stop_shift, Line.next_shift]
  exact hplace.setPlace line.stop line.next

/-- Reading the same lines elsewhere. -/
theorem foldl (h : Alike d front v r) (lines : List Line) :
    Alike d front (lines.foldl Reader.step v) ((lines.map (Line.shift d)).foldl Reader.step r) := by
  induction lines generalizing v r with
  | nil => exact h
  | cons line rest ih => exact ih (h.step line)

end Alike

end Reader

end LiveDoc.Markdown
