import LiveDoc.Proofs.Markdown.CodeSteps
import LiveDoc.Proofs.Markdown.GlyphOrder
import LiveDoc.Proofs.Markdown.Leftover
import LiveDoc.Proofs.Markdown.Opened

/-!
# Paragraphs in the order of the text

The glyphs of the paragraphs outside of all containers are glyphs of the text, in the order in which
they stand there, and none is in two paragraphs (`running_ofLines`). What one line preserves is that
the text of the paragraphs that are complete, and behind it the text of the open leaf, is among what
was read (`Reader.running_step`).
-/

namespace LiveDoc.Markdown

/-- The glyphs of a paragraph. -/
def Block.running : Block → List Glyph
  | .text .paragraph _ gs => gs
  | _ => []

/-- The glyphs of the paragraphs among blocks. Those in containers do not count. -/
def runningOf (bs : List Block) : List Glyph := bs.flatMap Block.running

/-- The glyphs that may become a paragraph when the leaf comes to its end. -/
def Leaf.running : Leaf → List Glyph
  | .content lead lines _ => (lead.toList ++ lines.reverse).flatMap Line.all
  | _ => []

theorem runningOf_append (bs cs : List Block) :
    runningOf (bs ++ cs) = runningOf bs ++ runningOf cs :=
  List.flatMap_append

/-- The text of a paragraph is part of that of all paragraphs. -/
theorem running_sublist {b : Block} {bs : List Block} (h : b ∈ bs) :
    b.running.Sublist (runningOf bs) :=
  List.sublist_flatten_of_mem (List.mem_map_of_mem h)

/-! ## What lines of text make -/

namespace Content

theorem running_definitions (fuel : Nat) (gs : List Glyph) :
    runningOf (definitions fuel gs).1 = [] ∧ (definitions fuel gs).2 <:+ gs := by
  induction fuel generalizing gs with
  | zero => exact ⟨rfl, List.suffix_rfl⟩
  | succ fuel ih =>
    rw [definitions]
    split
    · exact ⟨rfl, List.suffix_rfl⟩
    · next label rest hdef =>
      obtain ⟨hnil, hsuffix⟩ := ih (rest.drop 1)
      exact ⟨hnil,
        hsuffix.trans ((List.drop_suffix 1 rest).trans (Target.suffix_of_definition? hdef))⟩

theorem glyphs_sublist (lines : List Line) :
    (glyphs lines).Sublist (lines.reverse.flatMap Line.all) := by
  cases lines with
  | nil => exact .slnil
  | cons last earlier =>
    rw [glyphs, List.reverse_cons, List.flatMap_append]
    refine (List.Sublist.refl _).append ?_
    simp [Line.all]

/-- The text in front of definitions and behind them. -/
theorem running_parts (lead : Option Line) (lines : List Line) :
    (runningOf (parts lead lines).1 ++ (parts lead lines).2).Sublist
      ((lead.toList ++ lines.reverse).flatMap Line.all) := by
  obtain ⟨hdefs, hleft⟩ := running_definitions lines.length (glyphs lines)
  have hall := hleft.sublist.trans (glyphs_sublist lines)
  have hlead : ∀ l : Line, l.glyphs.Sublist l.all := fun l => List.sublist_append_left _ _
  unfold parts
  dsimp only
  split
  · rw [hdefs]
    exact hall
  · next l =>
    rw [Option.toList_some, List.singleton_append, List.flatMap_cons]
    split
    · exact (hlead l).trans (List.sublist_append_left _ _)
    · split
      · exact (List.Sublist.refl l.all).append hall
      · show (l.glyphs ++ runningOf (definitions lines.length (glyphs lines)).1 ++ _).Sublist _
        rw [hdefs, List.append_nil]
        exact (hlead l).append hall

theorem running_blocks (lead : Option Line) (lines : List Line) :
    (runningOf (blocks lead lines)).Sublist ((lead.toList ++ lines.reverse).flatMap Line.all) := by
  refine List.Sublist.trans ?_ (running_parts lead lines)
  unfold blocks
  dsimp only
  split
  · exact List.sublist_append_left _ _
  · rw [runningOf_append]
    exact (List.Sublist.refl _).append (by simp [runningOf, Block.running, textBlock])

end Content

/-! ## What a line does to a leaf -/

/-- Blocks that come out and the leaf that is open then hold text in the order of the glyphs. -/
def Flows (gs : List Glyph) (result : List Block × Leaf) : Prop :=
  (runningOf result.1 ++ result.2.running).Sublist gs

theorem Leaf.running_close (leaf : Leaf) (c : Closing) :
    (runningOf (leaf.close c)).Sublist leaf.running := by
  cases leaf with
  | content lead lines head => exact Content.running_blocks lead lines
  | fence o value ending => cases c <;> exact .slnil
  | _ => exact .slnil

theorem Leaf.flows_continue? {leaf next : Leaf} {line : Line} {pierced : Bool} {bs : List Block}
    (h : leaf.continue? line pierced = some (bs, next)) : Flows leaf.running (bs, next) := by
  unfold continue? at h
  split at h
  · split at h
    · cases h; exact .slnil
    · cases h; exact .slnil
  · split at h
    · cases h
    · split at h
      · cases h; exact .slnil
      · cases h; exact .slnil
  · split at h
    · cases h
    · split at h
      · cases h; exact .slnil
      · split at h
        · cases h; exact .slnil
        · cases h
  · next lead first lines cells =>
    split at h
    · cases h
      show (runningOf (Content.blocks lead lines) ++ []).Sublist _
      rw [List.append_nil]
      refine (Content.running_blocks lead lines).trans ?_
      simp [running]
    · cases h
  · cases h

theorem Start.flows_leaf (s : Start) (line : Line) : Flows line.all (s.leaf line) := by
  cases s with
  | underline => simp [Flows, leaf, runningOf, Leaf.running]
  | content head => simp [Flows, leaf, runningOf, Leaf.running]
  | indented rest single => cases single <;> exact List.nil_sublist _
  | html kind =>
    unfold leaf
    dsimp only
    split <;> exact List.nil_sublist _
  | _ => exact List.nil_sublist _

/-- A line meets a leaf: what was open comes to its end or goes on, and the line behind it. -/
theorem Leaf.flows_meet (leaf : Leaf) (s : Start) (line : Line) (stop : Nat) :
    Flows (leaf.running ++ line.all) (leaf.meet s line stop) := by
  have hends : Flows (leaf.running ++ line.all)
      (leaf.close (.cut stop) ++ (s.leaf line).1, (s.leaf line).2) := by
    rw [Flows, runningOf_append, List.append_assoc]
    exact (leaf.running_close _).append (s.flows_leaf line)
  cases leaf with
  | content lead lines head =>
    cases s with
    | content after => simp [Flows, meet, runningOf, running]
    | underline =>
      have hparts := Content.running_parts lead lines
      unfold meet
      dsimp only
      split
      · next defs hdefs =>
        rw [hdefs, List.append_nil] at hparts
        exact hparts.append (by simp [running])
      · next defs g text hdefs =>
        rw [hdefs] at hparts
        rw [Flows, runningOf_append]
        show (runningOf defs ++ [] ++ []).Sublist _
        rw [List.append_nil, List.append_nil]
        exact ((List.sublist_append_left _ _).trans hparts).trans (List.sublist_append_left _ _)
    | _ => exact hends
  | table start last rows =>
    cases s with
    | row => exact List.nil_sublist _
    | _ => exact hends
  | _ => exact hends

/-! ## What a line does to a reader -/

namespace Reader

/-- The text of the paragraphs that are complete. -/
def complete (r : Reader) : List Glyph := runningOf r.blocks.reverse

/-- The text of the paragraphs that are complete, and of the leaf. -/
def running (r : Reader) : List Glyph := r.complete ++ r.leaf.running

theorem complete_push (r : Reader) (bs : List Block) :
    (r.push bs).complete.Sublist (r.complete ++ runningOf bs) := by
  unfold push complete
  split
  · simp [runningOf_append]
  · exact List.sublist_append_left _ _

theorem complete_closeFrames (stop count : Nat) (r : Reader) :
    (closeFrames stop count r).complete.Sublist r.complete := by
  induction count generalizing r with
  | zero => exact .refl _
  | succ count ih =>
    unfold closeFrames
    split
    · exact .refl _
    · refine (ih _).trans ((complete_push _ _).trans ?_)
      simp [runningOf, Block.running, complete]

/-- Blocks that flow out of the leaf, and the next leaf. -/
theorem running_push {r : Reader} {gs : List Glyph} {bs : List Block} {next : Leaf}
    (h : Flows gs (bs, next)) :
    ((r.push bs).complete ++ next.running).Sublist (r.complete ++ gs) := by
  refine ((complete_push r bs).append_right _).trans ?_
  rw [List.append_assoc]
  exact (List.Sublist.refl _).append h

theorem running_feed (r : Reader) (line : Line) (missing : Nat) (pierced : Bool) :
    (r.feed line missing pierced).running.Sublist (r.running ++ line.all) := by
  have hrunning : r.running ++ line.all = r.complete ++ (r.leaf.running ++ line.all) :=
    List.append_assoc _ _ _
  rw [hrunning]
  unfold feed
  dsimp only
  split
  · next blocks next htaken =>
    split at htaken
    · cases htaken
    · refine (running_push (Leaf.flows_continue? htaken)).trans ?_
      exact (List.Sublist.refl _).append (List.sublist_append_left _ _)
  · split
    · refine (running_push ((Start.ofLine r.leaf _ line).flows_leaf line)).trans ?_
      rw [← List.append_assoc]
      refine ((complete_closeFrames _ _ _).trans ((complete_push _ _).trans ?_)).append_right _
      exact (List.Sublist.refl _).append (r.leaf.running_close _)
    · exact running_push (r.leaf.flows_meet _ line r.stop)

theorem running_flush (r : Reader) (count : Nat) : (r.flush count).running.Sublist r.running := by
  have hleaf : (r.flush count).leaf.running = [] :=
    congrArg (fun o => o.leaf.running) (r.outline_flush count).1
  rw [running, hleaf, List.append_nil]
  refine (complete_closeFrames _ _ _).trans ((complete_push _ _).trans ?_)
  exact (List.Sublist.refl _).append (r.leaf.running_close _)

theorem running_place (r : Reader) (line : Line) (missing : Nat) (new : List Frame)
    {rest : List Glyph} (h : rest <:+ line.glyphs) :
    (r.place line missing new rest).running.Sublist (r.running ++ line.all) := by
  have hcut : (line.cutTo rest).all.Sublist line.all := h.sublist.append (List.Sublist.refl _)
  unfold place
  split
  · exact (running_feed r _ _ _).trans ((List.Sublist.refl _).append hcut)
  · exact (running_feed _ _ _ _).trans ((running_flush r missing).append hcut)

/-- **A line adds its glyphs behind the text that was read**, in a paragraph or not at all. -/
theorem running_step (r : Reader) (line : Line) :
    (r.step line).running.Sublist (r.running ++ line.all) := by
  have hkept := continued_map r.frames.reverse line.glyphs
  have hsuffix := Outline.suffix_of_continued (r.frames.reverse.map Frame.container) line.glyphs
  rw [hkept] at hsuffix
  rw [step_eq]
  refine running_place (r.goOn _) line _ _ (List.IsSuffix.trans ?_ hsuffix)
  have hstarted := Outline.suffix_of_started r.outline
    (r.frames.length - (continued r.frames.reverse line.glyphs).1.length)
    (continued r.frames.reverse line.glyphs).2
  rwa [r.started_map line] at hstarted

theorem running_foldl (r : Reader) (lines : List Line) :
    (lines.foldl step r).running.Sublist (r.running ++ lines.flatMap Line.all) := by
  induction lines generalizing r with
  | nil => simp
  | cons line rest ih =>
    rw [List.foldl_cons, List.flatMap_cons, ← List.append_assoc]
    exact (ih (r.step line)).trans ((r.running_step line).append_right _)

end Reader

/-- **Paragraphs stand in the text one behind the other**: their glyphs are glyphs of its lines, in
order. -/
theorem running_ofLines (lines : List Line) :
    (runningOf (Block.ofLines lines)).Sublist (lines.flatMap Line.all) := by
  have hrun := (Reader.running_foldl .empty lines)
  have hflush :=
    (lines.foldl Reader.step .empty).running_flush (lines.foldl Reader.step .empty).frames.length
  exact ((List.sublist_append_left _ _).trans hflush).trans hrun

/-! ## Where paragraphs stand -/

/-- A paragraph is a block of text that stands where its glyphs do. -/
def Block.Spans (b : Block) : Prop :=
  b.isParagraph = true → ∃ gs, b = .text .paragraph (Glyph.spanOf gs) gs

theorem Block.spans_of_isParagraph {b : Block} (h : b.isParagraph = false) : b.Spans :=
  fun hparagraph => Bool.noConfusion (h.symm.trans hparagraph)

theorem Content.spans_textBlock (gs : List Glyph) : (textBlock .paragraph gs).Spans :=
  fun _ => ⟨gs, rfl⟩

theorem Content.spans_parts {lead : Option Line} {lines : List Line} {b : Block}
    (h : b ∈ (parts lead lines).1) : b.Spans := by
  rcases mem_parts h with hdefines | ⟨l, -, rfl⟩
  · exact Block.spans_of_isParagraph (Block.isParagraph_of_defines hdefines)
  · exact spans_textBlock _

theorem Content.spans_blocks {lead : Option Line} {lines : List Line} {b : Block}
    (h : b ∈ blocks lead lines) : b.Spans := by
  rw [blocks_eq_append, List.mem_append] at h
  rcases h with h | h
  · exact spans_parts h
  · split at h
    · cases h
    · rw [List.mem_singleton.mp h]
      exact spans_textBlock _

/-- Only lines of text make paragraphs, and these stand where their glyphs do. -/
theorem Leaf.gives_spans (leaf : Leaf) (stop next : Nat) (l : Line) :
    leaf.Gives Block.Spans stop next l := by
  by_cases htext : leaf.isText = false
  · exact ⟨fun b hb => Block.spans_of_isParagraph (isParagraph_close htext _ b hb),
      fun b hb => Block.spans_of_isParagraph (isParagraph_close htext _ b hb),
      fun _ _ _ htaken b hb => Block.spans_of_isParagraph (isParagraph_continue? htext htaken b hb),
      fun s b hb => Block.spans_of_isParagraph (isParagraph_meet htext s l stop b hb)⟩
  · obtain ⟨lead, lines, head, rfl⟩ : ∃ lead lines head, leaf = .content lead lines head := by
      cases leaf with
      | content lead lines head => exact ⟨lead, lines, head, rfl⟩
      | _ => exact absurd rfl htext
    refine ⟨fun b => Content.spans_blocks, fun b => Content.spans_blocks, ?_, ?_⟩
    · intro pierced bs after htaken b hb
      match lines, head with
      | first :: rest, some cells =>
        simp only [continue?] at htaken
        split at htaken
        · cases htaken
          exact Content.spans_blocks hb
        · cases htaken
      | [], Option.none | [], some _ | _ :: _, Option.none => cases htaken
    · intro s b hb
      have hclose : b ∈ Content.blocks lead lines ++ (s.leaf l).1 → b.Spans := by
        intro hmem
        rcases List.mem_append.mp hmem with hmem | hmem
        · exact Content.spans_blocks hmem
        · exact Block.spans_of_isParagraph (s.isParagraph_leaf l b hmem)
      cases s with
      | content after => cases hb
      | underline =>
        unfold meet at hb
        dsimp only at hb
        split at hb
        · next defs hdefs =>
          have hmem : b ∈ (Content.parts lead lines).1 := by
            rw [hdefs]
            exact hb
          exact Content.spans_parts hmem
        · next defs g text hdefs =>
          rcases List.mem_append.mp hb with hmem | hmem
          · have hmem' : b ∈ (Content.parts lead lines).1 := by
              rw [hdefs]
              exact hmem
            exact Content.spans_parts hmem'
          · rw [List.mem_singleton.mp hmem]
            exact Block.spans_of_isParagraph rfl
      | _ => exact hclose hb

namespace Reader

theorem Adds.forall_mem {P : Block → Prop} {r after : Reader} (h : Adds P r after)
    (hr : ∀ b ∈ r.blocks, P b) : ∀ b ∈ after.blocks, P b := by
  obtain ⟨bs, hbs, hall⟩ := h
  rw [hbs]
  exact List.forall_mem_append.mpr ⟨hall, hr⟩

theorem spans_foldl {lines : List Line} (hplaced : ∀ l ∈ lines, l.Placed) {r : Reader}
    (h : ∀ b ∈ r.blocks, b.Spans) : ∀ b ∈ (lines.foldl step r).blocks, b.Spans := by
  induction lines generalizing r with
  | nil => exact h
  | cons line rest ih =>
    obtain ⟨hline, hrest⟩ := List.forall_mem_cons.mp hplaced
    refine ih hrest (Adds.forall_mem ?_ h)
    exact adds_step (fun _ _ _ => Block.spans_of_isParagraph rfl) hline
      (fun _ => r.leaf.gives_spans r.stop r.next line)
      fun s b hb => Block.spans_of_isParagraph (s.isParagraph_leaf line b hb)

end Reader

/-- **The paragraphs of a text stand where their glyphs do.** -/
theorem spans_of_mem_ofLines {lines : List Line} (hplaced : ∀ l ∈ lines, l.Placed) {b : Block}
    (h : b ∈ Block.ofLines lines) : b.Spans := by
  have hblocks := Reader.spans_foldl hplaced (r := .empty) fun _ hb => absurd hb List.not_mem_nil
  generalize hr : lines.foldl Reader.step .empty = r at hblocks
  have hpush : Reader.Adds Block.Spans r (r.push (r.leaf.close (.flushed r.stop r.next))) :=
    Reader.adds_push _ fun _ => (r.leaf.gives_spans r.stop r.next ⟨[], none, 0⟩).flushed
  have hflush : Reader.Adds Block.Spans r (r.flush r.frames.length) :=
    (hpush.congr rfl).trans
      (Reader.adds_closeFrames (fun _ _ _ => Block.spans_of_isParagraph rfl) _ _ _)
  rw [Block.ofLines, hr, Reader.finish, List.mem_reverse] at h
  exact hflush.forall_mem hblocks b h

end LiveDoc.Markdown
