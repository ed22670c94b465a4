import LiveDoc.Proofs.Tree.Fences

/-!
# What later lines depend on

The reader of blocks gathers blocks that it never looks at again. An `Outline` is what is left of a
reader without them: the open containers, the open leaf, and where the last line ended.
`Outline.step` tells what a line does to it, and which blocks of code come to their end.

* `Reader.outline_step`, `Reader.codes_step` — the reader goes on as its outline does, and gathers
  the code that its outline gives out;
* `codesOf_ofLines` — so the code of a text is what a run of outlines gives out.
-/

namespace LiveDoc.Markdown

/-- A reader without the blocks that it gathered. The innermost container comes first. -/
structure Outline where
  containers : List Container
  leaf : Leaf
  interrupting : Bool
  stop : Nat
  next : Nat

namespace Outline

/-- Nothing was read. -/
def empty : Outline := ⟨[], .none, false, 0, 0⟩

/-- Takes off a line what the open containers ask for, from the outermost one on. -/
def continued : List Container → List Glyph → List Container × List Glyph
  | [], gs => ([], gs)
  | c :: cs, gs =>
    match c.continue? gs with
    | none => ([], gs)
    | some (c, rest) =>
      let (more, rest) := continued cs rest
      (c :: more, rest)

/-- Opens the containers that a line starts, up to `fuel` of them, the innermost first. -/
def opened : (fuel : Nat) → (interrupting : Bool) → List Container → List Glyph →
    List Container × List Glyph
  | 0, _, cs, gs => (cs, gs)
  | fuel + 1, interrupting, cs, gs =>
    match Container.open? interrupting gs with
    | none => (cs, gs)
    | some (c, rest) => opened fuel false (c :: cs) rest

/-- Gives a line, without the marks of containers, to the leaf. -/
def feed (o : Outline) (line : Line) (missing : Nat) (pierced : Bool) : List Code × Outline :=
  let lazy := missing ≠ 0
  let taken := if lazy then none else o.leaf.continue? line pierced
  match taken with
  | some (blocks, leaf) => (codesOf blocks, { o with leaf, interrupting := false })
  | none =>
    let m : Meeting := ⟨o.interrupting && !pierced, lazy, pierced⟩
    let s := Start.ofLine o.leaf m line
    if lazy && !(o.leaf.acceptsLazy && s.isContent) then
      let (blocks, leaf) := s.leaf line
      (codesOf (o.leaf.close (.cut o.stop)) ++ codesOf blocks,
        { o with containers := o.containers.drop missing, leaf, interrupting := s.isContent })
    else
      let (blocks, leaf) := o.leaf.meet s line o.stop
      (codesOf blocks, { o with leaf, interrupting := s.isContent })

/-- The code that comes to its end when containers are opened, or behind the last line. -/
def flushed (o : Outline) : List Code := codesOf (o.leaf.close (.flushed o.stop o.next))

/-- Gives a line to the leaf when `new` are the containers that it opens, and `rest` what is left of
it behind them. -/
def place (o : Outline) (line : Line) (missing : Nat) (new : List Container) (rest : List Glyph) :
    List Code × Outline :=
  if new.isEmpty then o.feed (line.cutTo rest) missing false
  else
    let opening : Outline :=
      { o with
        containers := new ++ o.containers.drop missing, leaf := .none, interrupting := false }
    let (codes, after) := opening.feed (line.cutTo rest) 0 true
    (o.flushed ++ codes, after)

/-- The containers that a line opens behind those that go on, and what is left of it. -/
def started (o : Outline) (missing : Nat) (rest : List Glyph) : List Container × List Glyph :=
  if missing = 0 && o.leaf.isConcrete then ([], rest)
  else opened (rest.length + 1) (missing = 0 && o.interrupting) [] rest

/-- Lets the open containers go on with a line, all but the innermost `missing`, which `kept`
lacks. -/
def goOn (o : Outline) (kept : List Container) : Outline :=
  { o with containers := o.containers.take (o.containers.length - kept.length) ++ kept.reverse }

/-- Reads a line, and gives the code that is complete by then. -/
def step (o : Outline) (line : Line) : List Code × Outline :=
  let (kept, rest) := continued o.containers.reverse line.glyphs
  let missing := o.containers.length - kept.length
  let (new, rest) := o.started missing rest
  let (codes, o) := (o.goOn kept).place line missing new rest
  (codes, { o with stop := line.stop, next := line.next })

/-- Reads lines. -/
def run (o : Outline) : List Line → List Code × Outline
  | [] => ([], o)
  | line :: lines =>
    let (codes, o) := o.step line
    let (more, o) := run o lines
    (codes ++ more, o)

theorem run_append (o : Outline) (ls ms : List Line) :
    o.run (ls ++ ms) =
      ((o.run ls).1 ++ ((o.run ls).2.run ms).1, ((o.run ls).2.run ms).2) := by
  induction ls generalizing o with
  | nil => rfl
  | cons l rest ih => simp only [List.cons_append, run, ih, List.append_assoc]

/-- All code of lines, what is still open at their end included. -/
def codes (o : Outline) (lines : List Line) : List Code :=
  (o.run lines).1 ++ (o.run lines).2.flushed

end Outline

namespace Reader

/-- What later lines depend on. -/
def outline (r : Reader) : Outline :=
  ⟨r.frames.map Frame.container, r.leaf, r.interrupting, r.stop, r.next⟩

/-- The code that was gathered, in order. -/
def codes (r : Reader) : List Code :=
  codesOf r.blocks.reverse ++ r.frames.reverse.flatMap fun f => codesOf f.blocks.reverse

theorem codes_eq (r : Reader) :
    r.codes = codesOf r.blocks.reverse ++
      (r.frames.map Frame.blocks).reverse.flatMap fun bs => codesOf bs.reverse := by
  rw [codes, ← List.map_reverse, List.flatMap_map]

/-- A reader whose leaf was set. -/
@[simp] theorem outline_leaf (r : Reader) (leaf : Leaf) (interrupting : Bool) :
    outline { r with leaf, interrupting } = { r.outline with leaf, interrupting } := rfl

@[simp] theorem codes_leaf (r : Reader) (leaf : Leaf) (interrupting : Bool) :
    codes { r with leaf, interrupting } = r.codes := rfl

@[simp] theorem outline_push (r : Reader) (blocks : List Block) :
    (r.push blocks).outline = r.outline := by
  unfold push outline
  split
  · rename_i hframes
    rw [hframes]
  · rename_i f frames hframes
    rw [hframes]
    rfl

@[simp] theorem codes_push (r : Reader) (blocks : List Block) :
    (r.push blocks).codes = r.codes ++ codesOf blocks := by
  unfold push codes
  split
  · rename_i hframes
    simp [hframes, codesOf_append]
  · rename_i f frames hframes
    simp [hframes, codesOf_append]

@[simp] theorem codes_closeFrames (stop count : Nat) (r : Reader) :
    (closeFrames stop count r).codes = r.codes := by
  induction count generalizing r with
  | zero => rfl
  | succ count ih =>
    unfold closeFrames
    split
    · rfl
    · rename_i f frames hframes
      rw [ih, codes_push]
      simp [codes, hframes, codesOf, Block.codes]

@[simp] theorem outline_closeFrames (stop count : Nat) (r : Reader) :
    (closeFrames stop count r).outline =
      { r.outline with containers := r.outline.containers.drop count } := by
  induction count generalizing r with
  | zero => rfl
  | succ count ih =>
    unfold closeFrames
    split
    · rename_i hframes
      simp [outline, hframes]
    · rename_i f frames hframes
      rw [ih, outline_push]
      simp [outline, hframes]

theorem continued_map (frames : List Frame) (gs : List Glyph) :
    Outline.continued (frames.map Frame.container) gs =
      ((continued frames gs).1.map Frame.container, (continued frames gs).2) := by
  induction frames generalizing gs with
  | nil => rfl
  | cons f rest ih =>
    rw [List.map_cons, Outline.continued, continued]
    cases f.container.continue? gs with
    | none => rfl
    | some result =>
      obtain ⟨c, left⟩ := result
      simp [ih]

theorem opened_map (fuel : Nat) (interrupting : Bool) (stop : Nat) (frames : List Frame)
    (gs : List Glyph) :
    Outline.opened fuel interrupting (frames.map Frame.container) gs =
      ((opened fuel interrupting stop frames gs).1.map Frame.container,
        (opened fuel interrupting stop frames gs).2) := by
  induction fuel generalizing interrupting frames gs with
  | zero => rfl
  | succ fuel ih =>
    rw [Outline.opened, opened]
    cases Container.open? interrupting gs with
    | none => rfl
    | some result =>
      obtain ⟨c, left⟩ := result
      exact ih false (⟨c, Glyph.startOf stop gs, []⟩ :: frames) left

/-- Containers that go on keep their blocks. -/
theorem blocks_continued (frames : List Frame) (gs : List Glyph) :
    (continued frames gs).1.map Frame.blocks =
      (frames.take (continued frames gs).1.length).map Frame.blocks := by
  induction frames generalizing gs with
  | nil => rfl
  | cons f rest ih =>
    rw [continued]
    cases f.container.continue? gs with
    | none => rfl
    | some result =>
      obtain ⟨c, left⟩ := result
      simpa using ih left

theorem length_continued_le (frames : List Frame) (gs : List Glyph) :
    (continued frames gs).1.length ≤ frames.length := by
  induction frames generalizing gs with
  | nil => exact Nat.le_refl 0
  | cons f rest ih =>
    rw [continued]
    cases f.container.continue? gs with
    | none => exact Nat.zero_le _
    | some result =>
      obtain ⟨c, left⟩ := result
      simpa using ih left

/-- Containers that were just opened hold no blocks. -/
theorem blocks_opened (fuel : Nat) (interrupting : Bool) (stop : Nat) {frames : List Frame}
    (h : ∀ f ∈ frames, f.blocks = []) (gs : List Glyph) :
    ∀ f ∈ (opened fuel interrupting stop frames gs).1, f.blocks = [] := by
  induction fuel generalizing interrupting frames gs with
  | zero => exact h
  | succ fuel ih =>
    rw [opened]
    cases Container.open? interrupting gs with
    | none => exact h
    | some result =>
      obtain ⟨c, left⟩ := result
      refine ih false ?_ left
      intro f hf
      rcases List.mem_cons.mp hf with rfl | hf
      · rfl
      · exact h f hf

/-! ## A reader goes on as its outline does -/

theorem outline_feed (r : Reader) (line : Line) (missing : Nat) (pierced : Bool) :
    (r.feed line missing pierced).outline = (r.outline.feed line missing pierced).2 ∧
      (r.feed line missing pierced).codes =
        r.codes ++ (r.outline.feed line missing pierced).1 := by
  have houtline : r.outline.leaf = r.leaf ∧ r.outline.interrupting = r.interrupting ∧
      r.outline.stop = r.stop := ⟨rfl, rfl, rfl⟩
  simp only [feed, Outline.feed, houtline]
  generalize (if missing ≠ 0 then none else r.leaf.continue? line pierced) = taken
  cases taken with
  | some result => simp [houtline]
  | none =>
    dsimp only
    split
    · simp [houtline]
    · simp [houtline]

/-- A reader whose open containers go on with a line, all but the innermost that `kept` lacks. -/
def goOn (r : Reader) (kept : List Frame) : Reader :=
  { r with frames := r.frames.take (r.frames.length - kept.length) ++ kept.reverse }

/-- A reader that gives a line to the leaf behind containers that it opens. -/
def place (r : Reader) (line : Line) (missing : Nat) (new : List Frame) (rest : List Glyph) :
    Reader :=
  if new.isEmpty then r.feed (line.cutTo rest) missing false
  else
    let opening := r.flush missing
    { opening with frames := new ++ opening.frames }.feed (line.cutTo rest) 0 true

/-- The containers that a line opens behind those that go on, and what is left of it. -/
def started (r : Reader) (line : Line) (missing : Nat) (rest : List Glyph) :
    List Frame × List Glyph :=
  if missing = 0 && r.leaf.isConcrete then ([], rest)
  else opened (rest.length + 1) (missing = 0 && r.interrupting) line.stop [] rest

/-- A step in its parts: containers go on, containers start, and the leaf gets the rest. -/
theorem step_eq (r : Reader) (line : Line) :
    r.step line =
      let kept := (continued r.frames.reverse line.glyphs).1
      let rest := (continued r.frames.reverse line.glyphs).2
      let missing := r.frames.length - kept.length
      let new := (r.started line missing rest).1
      let after := (r.goOn kept).place line missing new (r.started line missing rest).2
      { after with stop := line.stop, next := line.next } := rfl

theorem codes_goOn (r : Reader) (gs : List Glyph) :
    (r.goOn (continued r.frames.reverse gs).1).codes = r.codes := by
  have hblocks := blocks_continued r.frames.reverse gs
  have hlength := length_continued_le r.frames.reverse gs
  rw [List.length_reverse] at hlength
  have hframes : (r.goOn (continued r.frames.reverse gs).1).frames.map Frame.blocks =
      r.frames.map Frame.blocks := by
    unfold goOn
    dsimp only
    generalize (continued r.frames.reverse gs).1 = kept at hblocks hlength ⊢
    rw [List.map_append, List.map_reverse, hblocks, List.take_reverse, List.map_reverse,
      List.reverse_reverse, ← List.map_append, List.take_append_drop]
  rw [codes_eq, codes_eq, hframes]
  rfl

theorem outline_goOn (r : Reader) (kept : List Frame) :
    (r.goOn kept).outline = r.outline.goOn (kept.map Frame.container) := by
  simp [outline, goOn, Outline.goOn]

/-- Opening containers in front of a line. -/
theorem outline_opening (r : Reader) {new : List Frame} (h : ∀ f ∈ new, f.blocks = []) :
    outline { r with frames := new ++ r.frames } =
        { r.outline with containers := new.map Frame.container ++ r.outline.containers } ∧
      codes { r with frames := new ++ r.frames } = r.codes := by
  refine ⟨by simp [outline], ?_⟩
  have hnew : (new.reverse.flatMap fun f => codesOf f.blocks.reverse) = [] := by
    rw [List.flatMap_eq_nil_iff]
    intro f hf
    rw [h f (List.mem_reverse.mp hf)]
    rfl
  simp [codes, hnew]

/-- Closing the leaf and containers around it. -/
theorem outline_flush (r : Reader) (count : Nat) :
    (r.flush count).outline = { r.outline with
        containers := r.outline.containers.drop count, leaf := .none, interrupting := false } ∧
      (r.flush count).codes = r.codes ++ r.outline.flushed := by
  refine ⟨?_, ?_⟩
  · rw [flush, outline_closeFrames, outline_leaf, outline_push]
  · rw [flush, codes_closeFrames, codes_leaf, codes_push]
    rfl

theorem outline_place (r : Reader) (line : Line) (missing : Nat) {new : List Frame}
    (h : ∀ f ∈ new, f.blocks = []) (rest : List Glyph) :
    (r.place line missing new rest).outline =
        (r.outline.place line missing (new.map Frame.container) rest).2 ∧
      (r.place line missing new rest).codes =
        r.codes ++ (r.outline.place line missing (new.map Frame.container) rest).1 := by
  unfold place Outline.place
  rw [List.isEmpty_map]
  split
  · exact outline_feed r _ _ _
  · obtain ⟨hflush, hcodes⟩ := outline_flush r missing
    obtain ⟨hopen, hopenCodes⟩ := outline_opening (r.flush missing) h
    obtain ⟨hfeed, hfeedCodes⟩ := outline_feed
      { r.flush missing with frames := new ++ (r.flush missing).frames } (line.cutTo rest) 0 true
    rw [hopen, hflush] at hfeed hfeedCodes
    rw [hopenCodes, hcodes] at hfeedCodes
    refine ⟨hfeed, ?_⟩
    dsimp only
    rw [hfeedCodes, List.append_assoc]

theorem started_map (r : Reader) (line : Line) (missing : Nat) (rest : List Glyph) :
    r.outline.started missing rest =
      ((r.started line missing rest).1.map Frame.container, (r.started line missing rest).2) := by
  have hleaf : r.outline.leaf = r.leaf := rfl
  have hinterrupting : r.outline.interrupting = r.interrupting := rfl
  rw [Outline.started, started, hleaf, hinterrupting]
  cases missing = 0 && r.leaf.isConcrete with
  | false => exact opened_map (rest.length + 1) _ line.stop [] rest
  | true => rfl

theorem blocks_started (r : Reader) (line : Line) (missing : Nat) (rest : List Glyph) :
    ∀ f ∈ (r.started line missing rest).1, f.blocks = [] := by
  rw [started]
  cases missing = 0 && r.leaf.isConcrete with
  | false => exact blocks_opened _ _ _ (fun f hf => absurd hf List.not_mem_nil) rest
  | true => exact fun f hf => absurd hf List.not_mem_nil

theorem outline_step (r : Reader) (line : Line) :
    (r.step line).outline = (r.outline.step line).2 ∧
      (r.step line).codes = r.codes ++ (r.outline.step line).1 := by
  have hkept := continued_map r.frames.reverse line.glyphs
  rw [List.map_reverse] at hkept
  have hcodes := codes_goOn r line.glyphs
  have hcontainers : r.outline.containers = r.frames.map Frame.container := rfl
  rw [step_eq]
  simp only [Outline.step, hcontainers, hkept, List.length_map, r.started_map line]
  generalize (continued r.frames.reverse line.glyphs).1 = kept at hcodes ⊢
  generalize (continued r.frames.reverse line.glyphs).2 = rest
  obtain ⟨hplace, hplaceCodes⟩ := outline_place (r.goOn kept) line (r.frames.length - kept.length)
    (r.blocks_started line (r.frames.length - kept.length) rest)
    (r.started line (r.frames.length - kept.length) rest).2
  rw [outline_goOn] at hplace hplaceCodes
  rw [hcodes] at hplaceCodes
  refine ⟨?_, hplaceCodes⟩
  rw [← hplace]
  rfl

theorem outline_foldl (r : Reader) (lines : List Line) :
    (lines.foldl step r).outline = (r.outline.run lines).2 ∧
      (lines.foldl step r).codes = r.codes ++ (r.outline.run lines).1 := by
  induction lines generalizing r with
  | nil => simp [Outline.run]
  | cons line rest ih =>
    obtain ⟨houtline, hcodes⟩ := outline_step r line
    obtain ⟨ihOutline, ihCodes⟩ := ih (r.step line)
    rw [List.foldl_cons, ihOutline, ihCodes, houtline, hcodes]
    simp [Outline.run]

theorem codesOf_finish (r : Reader) : codesOf r.finish = r.codes ++ r.outline.flushed := by
  obtain ⟨houtline, hcodes⟩ := r.outline_flush r.frames.length
  have hframes : (r.flush r.frames.length).frames = [] := by
    have hcontainers : (r.flush r.frames.length).frames.map Frame.container =
        (r.frames.map Frame.container).drop r.frames.length := congrArg Outline.containers houtline
    rw [List.drop_eq_nil_of_le (by simp)] at hcontainers
    exact List.map_eq_nil_iff.mp hcontainers
  rw [← hcodes, finish, codes, hframes, List.reverse_nil, List.flatMap_nil, List.append_nil]

end Reader

/-- The code of the blocks of lines is what a run of outlines gives out. -/
theorem codesOf_ofLines (lines : List Line) :
    codesOf (Block.ofLines lines) = Outline.empty.codes lines := by
  obtain ⟨houtline, hcodes⟩ := Reader.outline_foldl .empty lines
  rw [Block.ofLines, Reader.codesOf_finish, houtline, hcodes]
  rfl

end LiveDoc.Markdown
