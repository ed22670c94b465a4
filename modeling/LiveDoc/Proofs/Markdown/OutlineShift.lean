import LiveDoc.Proofs.Markdown.Alike
import LiveDoc.Proofs.Markdown.Paragraph

/-!
# Outlines of the same lines elsewhere

An outline that is moved along with its lines gives out the same code, moved along
(`Outline.step_shift`, `Outline.codes_shift`). What code says about its language does not depend on
its place (`Code.tells_shift`).
-/

namespace LiveDoc.Markdown

open Text (Span)

variable (d : Nat)

/-- The code, moved by `d` bytes. -/
def Code.shift (c : Code) : Code :=
  ⟨⟨c.span.start + d, c.span.stop + d⟩, c.language.map (shifted d), c.details.map (shifted d),
    c.value⟩

/-! ## What glyphs mean -/

namespace Escape

theorem escape?_shifted (gs : List Glyph) :
    escape? (shifted d gs) = (escape? gs).map fun r => (r.1.shift d, shifted d r.2) := by
  match gs with
  | [] => rfl
  | [b] => rfl
  | b :: g :: rest =>
    simp only [shifted_cons, escape?]
    split <;> rfl

theorem terminated?_shifted (p : Char → Bool) (max : Nat) (gs : List Glyph) :
    terminated? p max (shifted d gs) =
      (terminated? p max gs).map fun r => (r.1, shifted d r.2) := by
  simp only [terminated?, takeWhile_shifted, dropWhile_shifted]
  cases gs.dropWhile fun g => p g.char with
  | nil => rfl
  | cons g rest =>
    have hnil : (shifted d (gs.takeWhile fun g => p g.char) ≠ []) =
        ((gs.takeWhile fun g => p g.char) ≠ []) := by
      cases gs.takeWhile fun g => p g.char <;> simp
    simp only [shifted_cons, length_shifted, map_char_shifted, hnil]
    split <;> rfl

theorem numbered?_shifted (gs : List Glyph) :
    numbered? (shifted d gs) = (numbered? gs).map fun r => (r.1, shifted d r.2) := by
  cases gs with
  | nil => rfl
  | cons x rest =>
    have hwhole := terminated?_shifted d Char.isDigit 7 (x :: rest)
    rw [shifted_cons] at hwhole
    simp only [shifted_cons, numbered?, terminated?_shifted, hwhole]
    split <;> simp only [Option.map_map, Function.comp_def]

theorem reference?_shifted (gs : List Glyph) :
    reference? (shifted d gs) = (reference? gs).map fun r => (r.1, shifted d r.2) := by
  match gs with
  | [] => rfl
  | [a] => rfl
  | a :: h :: rest =>
    have hnamed : named? (shifted d (h :: rest)) =
        (named? (h :: rest)).map fun r => (r.1, shifted d r.2) := by
      rw [named?, named?, terminated?_shifted]
      cases terminated? Char.isAlphanum 31 (h :: rest) with
      | none => rfl
      | some r => simp [Option.map_map, Function.comp_def]
    rw [shifted_cons] at hnamed
    simp only [shifted_cons, reference?, numbered?_shifted, hnamed]
    split
    · rfl
    · split <;> rfl

/-- What glyphs mean does not depend on their place. -/
@[simp] theorem decoded_shifted (gs : List Glyph) : decoded (shifted d gs) = decoded gs := by
  unfold decoded
  rw [length_shifted]
  generalize gs.length = fuel
  induction fuel generalizing gs with
  | zero => rfl
  | succ fuel ih =>
    cases gs with
    | nil => rfl
    | cons g rest =>
      have hescape := escape?_shifted d (g :: rest)
      have hreference := reference?_shifted d (g :: rest)
      rw [shifted_cons] at hescape hreference
      rw [shifted_cons, decodedFrom, decodedFrom, hescape, hreference]
      cases escape? (g :: rest) with
      | some r => simp [ih]
      | none =>
        cases reference? (g :: rest) with
        | some r => simp [ih]
        | none => simp [ih]

end Escape

/-- The language that code names, and all that it says behind its marker. -/
def Code.tells (c : Code) : Option String × String :=
  let language := c.language.map decodedText
  (language, Tree.infoText language (c.details.map decodedText))

@[simp] theorem Code.tells_shift (c : Code) : (c.shift d).tells = c.tells := by
  have htext : ∀ gs : Option (List Glyph),
      (gs.map (shifted d)).map decodedText = gs.map decodedText := by
    intro gs
    cases gs with
    | none => rfl
    | some gs => simp [decodedText]
  simp only [tells, shift, htext]

/-! ## Blocks -/

/-- Blocks that are neither code nor containers hold no code. -/
theorem codesOf_of_element {bs : List Block} (h : ∀ b ∈ bs, ∃ e, b.mark = .element e) :
    codesOf bs = [] := by
  induction bs with
  | nil => rfl
  | cons b rest ih =>
    have hcodes : b.codes = [] := by
      obtain ⟨e, he⟩ := h b List.mem_cons_self
      cases b <;> first | rfl | cases he
    rw [codesOf, hcodes, ih fun c hc => h c (List.mem_cons_of_mem b hc)]
    rfl

theorem Content.codesOf_parts (lead : Option Line) (lines : List Line) :
    codesOf (parts lead lines).1 = [] :=
  codesOf_of_element fun _ hb => exists_element_of_mem_parts hb

theorem Content.codesOf_blocks (lead : Option Line) (lines : List Line) :
    codesOf (blocks lead lines) = [] :=
  codesOf_of_element fun _ hb => exists_element_of_mem_blocks hb

/-- The code of a block of fenced code. -/
def FenceOpening.code (o : FenceOpening) (stop : Nat) (value : List (List Char)) : Code :=
  let named (gs : List Glyph) := if gs.isEmpty then none else some gs
  ⟨⟨o.start, stop⟩, named o.info, named o.details, valueOf value true⟩

@[simp] theorem FenceOpening.codesOf_block (o : FenceOpening) (stop : Nat)
    (value : List (List Char)) : codesOf [o.block stop value] = [o.code stop value] := rfl

@[simp] theorem FenceOpening.code_shift (o : FenceOpening) (stop : Nat) (value : List (List Char)) :
    (o.shift d).code (stop + d) value = (o.code stop value).shift d := by
  have hnamed : ∀ gs : List Glyph, (if (shifted d gs).isEmpty then none else some (shifted d gs)) =
      (if gs.isEmpty then none else some gs).map (shifted d) := by
    intro gs
    rw [isEmpty_shifted]
    split <;> rfl
  simp only [code, Code.shift, hnamed]

namespace Leaf

theorem codes_close_shift (leaf : Leaf) (c : Closing) :
    codesOf ((leaf.shift d).close (c.shift d)) = (codesOf (leaf.close c)).map (Code.shift d) := by
  cases leaf with
  | content lead lines head =>
    simp only [shift, close, Content.codesOf_blocks, List.map_nil]
  | fence o value ending =>
    cases c with
    | cut stop => exact congrArg (fun code => [code]) (o.code_shift d stop value)
    | flushed stop next =>
      exact congrArg (fun code => [code]) (o.code_shift d next (ending :: value))
  | indented start stop value waiting =>
    cases c <;> rfl
  | _ => rfl

/-- A leaf takes a line that is moved along in the same way, and completes the same code. -/
theorem codes_continue?_shift (leaf : Leaf) (line : Line) (pierced : Bool) :
    ((leaf.shift d).continue? (line.shift d) pierced).map (fun r => (codesOf r.1, r.2)) =
      (leaf.continue? line pierced).map fun r =>
        ((codesOf r.1).map (Code.shift d), r.2.shift d) := by
  cases leaf with
  | none => rfl
  | underlined => rfl
  | table start stop rows => rfl
  | fence o value ending =>
    simp only [shift, continue?, FenceOpening.closedBy_shift, Glyph.cutSpaces_shifted,
      Glyph.text_shifted, Line.endingText_shift, Line.stop_shift]
    split
    · simp only [Option.map_some, FenceOpening.codesOf_block, FenceOpening.code_shift,
        List.map_cons, List.map_nil]
    · rfl
  | html kind start =>
    simp only [shift, continue?, Line.isBlank_shift, Html.Block.closedBy_shifted]
    split
    · rfl
    · split <;> rfl
  | indented start stop value waiting =>
    simp only [shift, continue?, Container.takeIndent?_shifted, Line.isBlank_shift,
      Line.endingText_shift, Line.stop_shift]
    split
    · rfl
    · cases Container.takeIndent? Glyph.tabWidth line.glyphs with
      | some rest =>
        simp only [Option.map_some, Glyph.text_shifted]
        rfl
      | none =>
        simp only [Option.map_none]
        split <;> rfl
  | content lead lines head =>
    cases lines with
    | nil => cases head <;> rfl
    | cons l ls =>
      cases head with
      | none => rfl
      | some cells =>
        simp only [shift, continue?, List.map_cons, Table.isRule_shifted]
        split
        · simp only [Option.map_some, Content.codesOf_blocks, List.map_nil, List.map_cons,
            Line.stop_shift]
        · rfl

end Leaf

theorem Start.codes_leaf_shift (s : Start) (line : Line) :
    codesOf ((s.shift d).leaf (line.shift d)).1 = (codesOf (s.leaf line).1).map (Code.shift d) := by
  cases s with
  | indented rest single =>
    simp only [shift, leaf, Glyph.text_shifted, Line.endingText_shift, Line.stop_shift]
    cases single <;> rfl
  | html kind =>
    simp only [shift, leaf, Glyph.cutSpaces_shifted, Html.Block.closedAtOnce_shifted]
    split <;> rfl
  | _ => rfl

theorem Leaf.codes_meet_shift (leaf : Leaf) (s : Start) (line : Line) (stop : Nat) :
    codesOf ((leaf.shift d).meet (s.shift d) (line.shift d) (stop + d)).1 =
      (codesOf (leaf.meet s line stop).1).map (Code.shift d) := by
  -- what most leaves do: they come to their end, and the line makes the next leaf
  have hclose : codesOf ((leaf.shift d).close (.cut (stop + d)) ++
        ((s.shift d).leaf (line.shift d)).1) =
      (codesOf (leaf.close (.cut stop) ++ (s.leaf line).1)).map (Code.shift d) := by
    rw [codesOf_append, codesOf_append, List.map_append, s.codes_leaf_shift,
      ← leaf.codes_close_shift d (.cut stop)]
    rfl
  cases leaf with
  | content lead lines head =>
    cases s with
    | content after => rfl
    | underline =>
      -- neither the definitions nor the heading are code
      have hnone : ∀ (stop : Nat) (l : Line) (lead : Option Line) (lines : List Line),
          codesOf ((Leaf.content lead lines head).meet .underline l stop).1 = [] := by
        intro stop l lead lines
        have hparts := Content.codesOf_parts lead lines
        unfold Leaf.meet
        dsimp only
        split
        · next defs hdefs => rwa [hdefs] at hparts
        · next defs g text hdefs =>
          rw [hdefs] at hparts
          rw [codesOf_append, hparts]
          rfl
      rw [hnone, shift, Start.shift, hnone]
      rfl
    | _ => exact hclose
  | table start last rows =>
    cases s with
    | row => rfl
    | _ => exact hclose
  | _ => exact hclose

/-! ## Outlines -/

namespace Outline

/-- The outline, moved by `d` bytes. -/
@[reducible] def shift (o : Outline) : Outline :=
  { o with leaf := o.leaf.shift d, stop := o.stop + d, next := o.next + d }

/-- What a step gives out and leaves, moved by `d` bytes. -/
@[reducible] def moved (result : List Code × Outline) : List Code × Outline :=
  (result.1.map (Code.shift d), result.2.shift d)

theorem feed_shift (o : Outline) (line : Line) (missing : Nat) (pierced : Bool) :
    (o.shift d).feed (line.shift d) missing pierced = moved d (o.feed line missing pierced) := by
  have htaken : (if missing ≠ 0 then none
        else (o.leaf.shift d).continue? (line.shift d) pierced).map (fun r => (codesOf r.1, r.2)) =
      (if missing ≠ 0 then none else o.leaf.continue? line pierced).map fun r =>
        ((codesOf r.1).map (Code.shift d), r.2.shift d) := by
    split
    · rfl
    · exact o.leaf.codes_continue?_shift d line pierced
  unfold feed
  dsimp only
  rw [Start.ofLine_shift, Leaf.acceptsLazy_shift, Start.isContent_shift]
  generalize Start.ofLine o.leaf ⟨o.interrupting && !pierced, decide (missing ≠ 0), pierced⟩ line =
    s
  generalize (if missing ≠ 0 then none
    else (o.leaf.shift d).continue? (line.shift d) pierced) = taken' at htaken ⊢
  generalize (if missing ≠ 0 then none else o.leaf.continue? line pierced) = taken at htaken ⊢
  cases taken with
  | some result =>
    obtain ⟨result', rfl⟩ : ∃ result', taken' = some result' := by
      cases taken' with
      | none => cases htaken
      | some result' => exact ⟨result', rfl⟩
    obtain ⟨hcodes, hleaf⟩ := Prod.mk.inj (Option.some.inj htaken)
    simp only [moved, hcodes, hleaf]
  | none =>
    obtain rfl : taken' = none := by
      cases taken' with
      | none => rfl
      | some result' => cases htaken
    dsimp only
    split
    · have hcut := o.leaf.codes_close_shift d (.cut o.stop)
      rw [Closing.shift] at hcut
      rw [s.codes_leaf_shift, (s.leaf_shift d line).2, hcut, ← List.map_append]
    · rw [o.leaf.codes_meet_shift, (o.leaf.meet_shift d s line o.stop).2]

theorem flushed_shift (o : Outline) :
    (o.shift d).flushed = o.flushed.map (Code.shift d) :=
  o.leaf.codes_close_shift d (.flushed o.stop o.next)

theorem place_shift (o : Outline) (line : Line) (missing : Nat) (new : List Container)
    (rest : List Glyph) : (o.shift d).place (line.shift d) missing new (shifted d rest) =
      moved d (o.place line missing new rest) := by
  unfold place
  rw [Line.cutTo_shift]
  split
  · exact o.feed_shift d _ missing false
  · have hfeed := feed_shift d
      { o with
        containers := new ++ o.containers.drop missing, leaf := .none, interrupting := false }
      (line.cutTo rest) 0 true
    have hnone : Leaf.shift d .none = .none := rfl
    rw [shift, hnone] at hfeed
    rw [flushed_shift]
    dsimp only
    rw [hfeed]
    simp only [moved, List.map_append]

theorem started_shift (o : Outline) (missing : Nat) (rest : List Glyph) :
    (o.shift d).started missing (shifted d rest) =
      ((o.started missing rest).1, shifted d (o.started missing rest).2) := by
  unfold started
  rw [Leaf.isConcrete_shift, length_shifted]
  split
  · rfl
  · exact opened_shifted d _ _ [] rest

/-- A line that is moved along does the same to an outline that is moved along. -/
theorem step_shift (o : Outline) (line : Line) :
    (o.shift d).step (line.shift d) = moved d (o.step line) := by
  have hcontinued := continued_shifted d o.containers.reverse line.glyphs
  unfold step
  dsimp only
  rw [hcontinued]
  dsimp only
  rw [started_shift]
  generalize continued o.containers.reverse line.glyphs = going
  obtain ⟨kept, rest⟩ := going
  dsimp only
  generalize o.started (o.containers.length - kept.length) rest = opening
  obtain ⟨new, rest⟩ := opening
  have hplace := place_shift d (o.goOn kept) line (o.containers.length - kept.length) new rest
  rw [show (o.shift d).goOn kept = (o.goOn kept).shift d from rfl]
  dsimp only
  rw [hplace, Line.stop_shift, Line.next_shift]

theorem run_shift (o : Outline) (lines : List Line) :
    (o.shift d).run (lines.map (Line.shift d)) = moved d (o.run lines) := by
  induction lines generalizing o with
  | nil => rfl
  | cons line rest ih =>
    rw [List.map_cons, run, run, step_shift]
    dsimp only
    rw [ih]
    simp only [moved, List.map_append]

/-- The same lines elsewhere hold the same code, moved along. -/
theorem codes_shift (o : Outline) (lines : List Line) :
    (o.shift d).codes (lines.map (Line.shift d)) = (o.codes lines).map (Code.shift d) := by
  rw [codes, run_shift, flushed_shift, codes, List.map_append]

end Outline

end LiveDoc.Markdown
