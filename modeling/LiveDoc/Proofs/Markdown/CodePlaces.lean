import LiveDoc.Proofs.Markdown.Codeless
import LiveDoc.Proofs.Markdown.GlyphOrder
import LiveDoc.Proofs.Markdown.Leftover

/-!
# Where inline code stands

The inline code of running text is cut out of its glyphs: every piece of it is a run of glyphs that
starts with a backtick, and one run ends before the next one starts (`Inline.cutOut_nodes`).

* Matching emphasis and joining text keep the code that the pieces hold, and its order
  (`Piece.places_nodes`).
* A step of reading takes a run of glyphs off the front. It adds the run to the code that was read,
  if it is code, or drops code that stands in the text of an image (`Inline.places_read`).
-/

namespace LiveDoc.Markdown

open Text (Span)

mutual

/-- The places of the inline code of a node in document order. -/
def Node.codePlaces : Node → List (Option Span)
  | .code _ _ _ _ => []
  | .inlineCode span _ => [span]
  | .text _ _ => []
  | .element _ _ children => codePlacesOf children

/-- The places of the inline code of several nodes. -/
def codePlacesOf : List Node → List (Option Span)
  | [] => []
  | n :: rest => n.codePlaces ++ codePlacesOf rest

end

theorem codePlacesOf_append (ms ns : List Node) :
    codePlacesOf (ms ++ ns) = codePlacesOf ms ++ codePlacesOf ns := by
  induction ms with
  | nil => rfl
  | cons m rest ih => rw [List.cons_append, codePlacesOf, codePlacesOf, ih, List.append_assoc]

/-! ## What is made of pieces -/

namespace Piece

/-- The places of the inline code of a piece. -/
def places : Piece → List (Option Span)
  | .node n => n.codePlaces
  | _ => []

/-- The places of the inline code of pieces in order. -/
def placesOf (ps : List Piece) : List (Option Span) := ps.flatMap places

variable {p : Piece} {ps qs : List Piece}

@[simp] theorem placesOf_nil : placesOf [] = [] := rfl

@[simp] theorem placesOf_cons (p : Piece) (ps : List Piece) :
    placesOf (p :: ps) = p.places ++ placesOf ps := List.flatMap_cons

@[simp] theorem placesOf_append (ps qs : List Piece) :
    placesOf (ps ++ qs) = placesOf ps ++ placesOf qs := List.flatMap_append

@[simp] theorem places_data (gs : List Glyph) : places (.data gs) = [] := rfl

@[simp] theorem places_run (r : Run) : places (.run r) = [] := rfl

@[simp] theorem places_lineEnd (g : Glyph) : places (.lineEnd g) = [] := rfl

@[simp] theorem places_lineBreak (span : Span) : places (.lineBreak span) = [] := rfl

@[simp] theorem places_meant (span : Span) (value : List Char) :
    places (.meant span value) = [] := rfl

@[simp] theorem places_node (n : Node) : places (.node n) = n.codePlaces := rfl

@[simp] theorem places_unmatched (p : Piece) : (unmatched p).places = p.places := by
  cases p <;> rfl

theorem placesOf_joined (ps : List Piece) : placesOf (joined ps) = placesOf ps := by
  induction ps with
  | nil => rfl
  | cons p rest ih =>
    have hp := places_unmatched p
    unfold joined
    split
    · next hdata hrest =>
      rw [hdata, places_data] at hp
      rw [hrest, placesOf_cons, places_data] at ih
      rw [placesOf_cons, placesOf_cons, places_data, ← hp, ← ih]
      rfl
    · rw [placesOf_cons, placesOf_cons, hp, ih]

/-- Text that is left of data holds no code. -/
@[simp] theorem placesOf_ite_data (c : Prop) [Decidable c] (gs : List Glyph) :
    placesOf (if c then [] else [.data gs]) = [] := by
  split <;> rfl

theorem placesOf_trimmed (atStart atEnd : Bool) (ps : List Piece) :
    placesOf (trimmed atStart atEnd ps) = placesOf ps := by
  fun_induction trimmed atStart atEnd ps with
  | case1 => rfl
  | case2 atStart gs g rest text spaces hcut text' ih =>
    rw [placesOf_append, placesOf_ite_data, placesOf_cons, ih]
    split <;> rfl
  | case3 atStart gs rest hrest text text' ih =>
    rw [placesOf_append, placesOf_ite_data, ih]
    rfl
  | case4 atStart g rest ih => rw [placesOf_cons, ih]; rfl
  | case5 atStart s rest ih => rw [placesOf_cons, ih]; rfl
  | case6 atStart p rest _ _ _ _ ih => rw [placesOf_cons, placesOf_cons, ih]

theorem placesOf_linked (ps : List Piece) : placesOf (linked ps) = placesOf ps := by
  induction ps with
  | nil => rfl
  | cons p rest ih =>
    cases p with
    | data gs =>
      have hmade : ∀ parts : List (Bool × List Glyph), placesOf (parts.map fun part =>
          if part.1 then .node (addressNode part.2) else .data part.2) = [] := by
        intro parts
        refine List.flatMap_eq_nil_iff.mpr fun q hq => ?_
        obtain ⟨⟨address, part⟩, -, rfl⟩ := List.mem_map.mp hq
        cases address <;> rfl
      rw [linked, placesOf_append, hmade, ih]
      rfl
    | _ => rw [linked, placesOf_cons, placesOf_cons, ih]; simp

theorem codePlacesOf_gathered (text : Option (Span × List Char)) :
    codePlacesOf (gathered text) = [] := by
  cases text <;> rfl

theorem codePlacesOf_toNodes (text : Option (Span × List Char)) (ps : List Piece) :
    codePlacesOf (toNodes text ps) = placesOf ps := by
  fun_induction toNodes text ps with
  | case1 text => exact codePlacesOf_gathered text
  | case6 text span rest ih =>
    rw [codePlacesOf_append, codePlacesOf_gathered, codePlacesOf, ih]
    rfl
  | case7 text n rest ih =>
    rw [codePlacesOf_append, codePlacesOf_gathered, codePlacesOf, ih]
    rfl
  | _ => rename_i ih; exact ih

theorem codePlacesOf_settled (inLink atStart atEnd : Bool) (ps : List Piece) :
    codePlacesOf (settled inLink atStart atEnd ps) = placesOf ps := by
  have htrimmed : placesOf (trimmed atStart atEnd (joined ps)) = placesOf ps := by
    rw [placesOf_trimmed, placesOf_joined]
  unfold settled
  rw [codePlacesOf_toNodes]
  split
  · exact htrimmed
  · rw [placesOf_linked, htrimmed]

/-- Emphasis takes the place of the pieces that it holds. -/
theorem placesOf_closeRun (inLink : Bool) (fuel : Nat) (r : Run) (before : List Piece) :
    placesOf (closeRun inLink fuel r before).reverse = placesOf before.reverse := by
  fun_induction closeRun inLink fuel r before with
  | case1 => rfl
  | case2 => rfl
  | case3 => simp
  | case4 fuel r before hne inner o rest hfind take left element span made rest' ih =>
    have hbefore : before = inner ++ .run o :: rest := by
      split at hfind
      · exact eq_append_of_findOpening hfind
      · cases hfind
    have hrest : placesOf rest'.reverse = placesOf rest.reverse := by
      show placesOf (if left.isEmpty then rest
        else .run { o with glyphs := left } :: rest).reverse = _
      split
      · rfl
      · simp
    have hmade : made.places = placesOf inner.reverse := codePlacesOf_settled inLink false false _
    rw [ih, hbefore, List.reverse_cons, placesOf_append, hrest, placesOf_cons, hmade]
    simp

theorem placesOf_matched (inLink : Bool) (before ps : List Piece) :
    placesOf (matched inLink before ps) = placesOf before.reverse ++ placesOf ps := by
  fun_induction matched inLink before ps with
  | case1 => simp
  | case2 before r rest ih => rw [ih, placesOf_closeRun]; simp
  | case3 before p rest hrun ih => rw [ih]; simp

/-- **The nodes of pieces hold the code of the pieces**, in the same order. -/
theorem codePlacesOf_nodes (inLink atStart atEnd : Bool) (ps : List Piece) :
    codePlacesOf (nodes inLink atStart atEnd ps) = placesOf ps := by
  rw [nodes, codePlacesOf_settled, placesOf_matched]
  rfl

end Piece

/-! ## Code that is cut out of glyphs -/

/-- The places are those of runs that start with a backtick, and that stand in the glyphs one behind
the other. -/
inductive CutOut : List Glyph → List (Option Span) → Prop
  | nil : CutOut [] []
  | skip (g : Glyph) {gs : List Glyph} {places : List (Option Span)} : CutOut gs places →
      CutOut (g :: gs) places
  | run {run gs : List Glyph} {places : List (Option Span)} :
      run.head?.map (·.char) = some '`' → CutOut gs places →
      CutOut (run ++ gs) (some (Glyph.spanOf run) :: places)

namespace CutOut

variable {gs hs run : List Glyph} {places places' : List (Option Span)}

theorem none (gs : List Glyph) : CutOut gs [] := by
  induction gs with
  | nil => exact .nil
  | cons g rest ih => exact ih.skip g

theorem skips (front : List Glyph) (h : CutOut gs places) : CutOut (front ++ gs) places := by
  induction front with
  | nil => exact h
  | cons g rest ih => exact ih.skip g

theorem append (h : CutOut gs places) (h' : CutOut hs places') :
    CutOut (gs ++ hs) (places ++ places') := by
  induction h with
  | nil => exact h'
  | skip g _ ih => exact ih.skip g
  | run hrun _ ih =>
    rw [List.append_assoc]
    exact ih.run hrun

theorem sublist (h : CutOut gs places) (hsub : places'.Sublist places) : CutOut gs places' := by
  induction h generalizing places' with
  | nil => rw [List.sublist_nil.mp hsub]; exact .nil
  | skip g _ ih => exact (ih hsub).skip g
  | run hrun _ ih =>
    cases hsub with
    | cons _ hsub => exact (ih hsub).skips _
    | cons_cons _ hsub => exact (ih hsub).run hrun

end CutOut

namespace Inline

open Piece

/-! ## Reading running text -/

/-- The places of the code that was read so far, also in front of open brackets. -/
def Reading.places (r : Reading) : List (Option Span) := placesOf r.finish

theorem finish_append (ps qs : List Piece) (brackets : List Bracket) :
    Reading.finish ⟨ps ++ qs, brackets⟩ = Reading.finish ⟨qs, brackets⟩ ++ ps.reverse := by
  unfold Reading.finish
  dsimp only
  rw [← List.reverse_append]
  congr 1
  induction brackets generalizing qs with
  | nil => rfl
  | cons b rest ih => rw [List.foldl_cons, List.foldl_cons, List.append_assoc, ih]

theorem finish_push (p : Piece) (pieces : List Piece) (brackets : List Bracket) :
    Reading.finish ⟨p :: pieces, brackets⟩ = Reading.finish ⟨pieces, brackets⟩ ++ [p] :=
  finish_append [p] pieces brackets

/-- What was read in front of the innermost bracket, and behind it. -/
theorem finish_cons (pieces : List Piece) (b : Bracket) (brackets : List Bracket) :
    Reading.finish ⟨pieces, b :: brackets⟩ =
      Reading.finish ⟨b.before, brackets⟩ ++ .data b.glyphs :: pieces.reverse := by
  have hloose : Reading.finish ⟨pieces, b :: brackets⟩ =
      Reading.finish ⟨pieces ++ .data b.glyphs :: b.before, brackets⟩ := rfl
  rw [hloose, finish_append, finish_push, List.append_assoc, List.singleton_append]

theorem places_push (r : Reading) (p : Piece) :
    Reading.places { r with pieces := p :: r.pieces } = r.places ++ p.places := by
  rw [Reading.places, finish_push, placesOf_append]
  simp [Reading.places]

theorem places_loosen (r : Reading) : r.loosen.places = r.places := by
  unfold Reading.loosen
  split
  · rfl
  · next b brackets hbrackets =>
    obtain ⟨pieces, all⟩ := r
    obtain rfl : all = b :: brackets := hbrackets
    rfl

/-- Brackets that make no links any more hold what they held. -/
theorem finish_map {f : Bracket → Bracket}
    (hf : ∀ b, (f b).glyphs = b.glyphs ∧ (f b).before = b.before) (pieces : List Piece)
    (brackets : List Bracket) :
    Reading.finish ⟨pieces, brackets.map f⟩ = Reading.finish ⟨pieces, brackets⟩ := by
  unfold Reading.finish
  simp only [List.foldl_map, hf]

/-- An element that takes the place of a bracket holds code that stood behind the bracket. -/
theorem places_close {r : Reading} {b : Bracket} {outer : List Bracket}
    (hr : r.brackets = b :: outer) (element : Element) {children : List Node}
    (hchildren : (codePlacesOf children).Sublist (placesOf r.pieces.reverse)) (stop : Nat) :
    (close r b outer element children stop).places.Sublist r.places := by
  have hclose : (close r b outer element children stop).places =
      placesOf (Reading.finish ⟨b.before, outer⟩) ++ codePlacesOf children := by
    unfold close Reading.places
    dsimp only
    rw [finish_push, placesOf_append, placesOf_cons, placesOf_nil, List.append_nil]
    congr 2
    split
    · rfl
    · refine finish_map (fun o => ?_) _ _
      split <;> exact ⟨rfl, rfl⟩
  obtain ⟨pieces, brackets⟩ := r
  obtain rfl : brackets = b :: outer := hr
  rw [hclose, Reading.places, finish_cons, placesOf_append, placesOf_cons]
  exact (List.Sublist.refl _).append hchildren

/-- A closing bracket drops code, or keeps all of it, and leaves a suffix. -/
theorem places_closing (labels : Labels) (r : Reading) (g : Glyph) (rest : List Glyph) :
    (closing labels r g rest).1.places.Sublist r.places ∧ (closing labels r g rest).2 <:+ rest := by
  have hloose :
      Reading.places { r.loosen with pieces := .data [g] :: r.loosen.pieces } = r.places := by
    rw [places_push, places_loosen]
    exact List.append_nil _
  have hkept : Reading.places { r.loosen with pieces := .data [g] :: r.loosen.pieces } |>.Sublist
      r.places := by
    rw [hloose]
  unfold closing
  dsimp only
  split
  · exact ⟨hkept, List.suffix_rfl⟩
  · next b outer hbrackets =>
    split
    · exact ⟨hkept, List.suffix_rfl⟩
    · split
      · have hnone : (codePlacesOf []).Sublist (placesOf r.pieces.reverse) := List.nil_sublist _
        exact ⟨places_close hbrackets _ hnone _, List.suffix_rfl⟩
      · split
        · exact ⟨hkept, List.suffix_rfl⟩
        · next byLabel after htarget =>
          refine ⟨places_close hbrackets _ ?_ _, suffix_of_target? htarget⟩
          split
          · exact List.nil_sublist _
          · rw [codePlacesOf_nodes, placesOf_append]
            split <;> simp

theorem places_of_backslash? {gs rest : List Glyph} {piece : Piece}
    (h : backslash? gs = some (piece, rest)) : piece.places = [] := by
  unfold backslash? at h
  split at h
  · split at h
    · cases h
      rfl
    · obtain ⟨⟨e, left⟩, -, heq⟩ := Option.map_eq_some_iff.mp h
      cases heq
      rfl
  · cases h

theorem places_of_ampersand? {gs rest : List Glyph} {piece : Piece}
    (h : ampersand? gs = some (piece, rest)) : piece.places = [] := by
  obtain ⟨⟨value, left⟩, -, heq⟩ := Option.map_eq_some_iff.mp h
  cases heq
  rfl

theorem places_of_angle? {gs rest : List Glyph} {piece : Piece}
    (h : angle? gs = some (piece, rest)) : piece.places = [] := by
  unfold angle? at h
  split at h
  · cases h
    rfl
  · obtain ⟨left, -, heq⟩ := Option.map_eq_some_iff.mp h
    cases heq
    rfl

/-- The code that a construct holds is the whole construct. -/
theorem places_of_construct? {cell escaped : Bool} {before : Option Char} {gs rest : List Glyph}
    {piece : Piece} (h : construct? cell before escaped gs = some (piece, rest)) :
    piece.places = [] ∨ ∃ run, gs = run ++ rest ∧ run.head?.map (·.char) = some '`' ∧
      piece.places = [some (Glyph.spanOf run)] := by
  unfold construct? at h
  split at h
  · cases h
  split at h
  · cases h
    exact Or.inl rfl
  split at h
  · exact Or.inl (places_of_backslash? h)
  split at h
  · exact Or.inl (places_of_ampersand? h)
  split at h
  · split at h
    · cases h
    · obtain ⟨run, value, hrun, htick, rfl⟩ := exists_code h
      exact Or.inr ⟨run, hrun, htick, rfl⟩
  split at h
  · exact Or.inl (places_of_angle? h)
  split at h
  · cases h
    exact Or.inl rfl
  · obtain ⟨address, -, heq⟩ := Option.map_eq_some_iff.mp h
    cases heq
    exact Or.inl rfl

theorem append_of_open? {gs : List Glyph} {pieces : List Piece} {b : Bracket}
    (h : open? gs pieces = some b) : gs = b.glyphs ++ b.content := by
  unfold open? at h
  dsimp only at h
  split at h
  · split at h
    · cases h
    · cases h
      exact (List.take_append_drop _ _).symm
  · split at h
    · cases h
      exact (List.take_append_drop _ _).symm
    · split at h
      · cases h
        exact (List.take_append_drop _ _).symm
      · cases h

/-- **Reading cuts code out of the glyphs**: `done` is what was read already. -/
theorem cutOut_read (labels : Labels) (cell : Bool) (fuel : Nat) (before : Option Char)
    (escaped : Bool) (r : Reading) (gs : List Glyph) : ∀ done : List Glyph, CutOut done r.places →
      CutOut (done ++ gs) (read labels cell fuel before escaped r gs).places := by
  have hrest : ∀ {front places}, CutOut front places → ∀ gs, CutOut (front ++ gs) places := by
    intro front places hfront gs
    have hmore := hfront.append (.none gs)
    rwa [List.append_nil] at hmore
  fun_induction read labels cell fuel before escaped r gs with
  | case1 => exact fun done h => hrest h _
  | case2 => exact fun done h => hrest h _
  | case3 fuel before escaped r g rest b hopen ih =>
    intro done h
    rw [append_of_open? hopen, ← List.append_assoc]
    refine ih _ ?_
    have hplaces : Reading.places ⟨[], b :: r.brackets⟩ = r.places := by
      rw [Reading.places, finish_cons, before_of_open hopen]
      simp [Reading.places]
    rw [hplaces]
    exact hrest h _
  | case4 fuel before escaped r g rest hopen hclose r' after hclosing used ih =>
    intro done h
    obtain ⟨hplaces, front, hfront⟩ := places_closing labels r g rest
    rw [hclosing] at hplaces hfront
    have hall : done ++ g :: rest = (done ++ g :: front) ++ after := by simp [← hfront]
    rw [hall]
    exact ih _ ((hrest h _).sublist hplaces)
  | case5 fuel before escaped r g rest hopen hclose piece after hconstruct used escaped' ih =>
    intro done h
    obtain ⟨front, hfront⟩ := suffix_of_construct? hconstruct
    rw [← hfront, ← List.append_assoc]
    refine ih _ ?_
    rw [places_push]
    rcases places_of_construct? hconstruct with hnil | ⟨run, hrun, htick, hpiece⟩
    · rw [hnil, List.append_nil]
      exact hrest h _
    · obtain rfl : front = run := List.append_cancel_right (hfront.trans hrun)
      have hcode := (CutOut.nil).run htick
      rw [List.append_nil] at hcode
      rw [hpiece]
      exact h.append hcode
  | case6 fuel before escaped r g rest hopen hclose hconstruct ih =>
    intro done h
    have hall : done ++ g :: rest = (done ++ [g]) ++ rest := by simp
    rw [hall]
    refine ih _ ?_
    rw [places_push]
    exact (List.append_nil r.places).symm ▸ hrest h [g]

/-- **The inline code of running text stands in its glyphs**, one piece behind the other. -/
theorem cutOut_nodes (labels : Labels) (gs : List Glyph) :
    CutOut gs (codePlacesOf (nodes labels gs)) := by
  have hread := cutOut_read labels false (gs.length + 1) none false ⟨[], []⟩ gs [] .nil
  rw [nodes, nodesAfter, codePlacesOf_nodes]
  exact hread

end Inline

end LiveDoc.Markdown
