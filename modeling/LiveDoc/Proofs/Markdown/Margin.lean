import LiveDoc.Proofs.Markdown.FenceLines
import LiveDoc.Proofs.Markdown.IndentedCode
import LiveDoc.Proofs.Markdown.Spelled

/-!
# Margins

What stands in front of the lines of fenced code, for the containers around it.

* A margin is what the containers take off a line that goes on with something solid, up to spaces
  that a marker may stand behind (`Outline.IsMargin`).
* It is aligned with the fence when as many of these spaces are left as the fence is indented by
  (`Outline.Aligned`). Then it may stand in front of anything (`Outline.Aligned.exists_continued`),
  and without the blanks at its end in front of nothing
  (`Outline.Aligned.exists_continued_trimmed`).
-/

namespace LiveDoc.Markdown

open Text (byteLength)

variable {H M Z front gs rest : List Glyph} {c c' : Container} {cs : List Container}

/-! ## Spaces at the start of a line -/

namespace Glyph

/-- What is cut in front of something, or up to the limit, does not depend on what follows. -/
theorem cutSpaces_append_of {n : Nat} (h : (cutSpaces n H).2 ≠ [] ∨ (cutSpaces n H).1.length = n)
    (M : List Glyph) : cutSpaces n (H ++ M) = ((cutSpaces n H).1, (cutSpaces n H).2 ++ M) := by
  induction n generalizing H with
  | zero => rfl
  | succ n ih =>
    cases H with
    | nil => rcases h with h | h <;> simp [cutSpaces] at h
    | cons g rest =>
      rw [List.cons_append, cutSpaces]
      rw [cutSpaces] at h
      split
      · next hg =>
        rw [if_pos hg] at h
        rw [ih (h.imp_right Nat.succ.inj)]
        simp [cutSpaces, hg]
      · next hg => simp [cutSpaces, hg]

/-- Spaces behind a run stay behind what is left of it. -/
theorem exists_cutSpaces_append (hZ : Z.all isSpace = true) (n : Nat) (H : List Glyph) :
    ∃ Z', (cutSpaces n (H ++ Z)).2 = (cutSpaces n H).2 ++ Z' ∧ Z'.all isSpace = true := by
  by_cases hleft : (cutSpaces n H).2 = []
  · refine ⟨(cutSpaces n (H ++ Z)).2, by rw [hleft, List.nil_append], ?_⟩
    have hself := cutSpaces_append_self n H
    rw [hleft, List.append_nil] at hself
    rw [List.all_eq_true]
    intro g hg
    rcases List.mem_append.mp ((cutSpaces_suffix n (H ++ Z)).subset hg) with hg | hg
    · rw [← hself] at hg
      exact isSpace_of_mem_cutSpaces hg
    · exact List.all_eq_true.mp hZ g hg
  · exact ⟨Z, by rw [cutSpaces_append_of (Or.inl hleft)], hZ⟩

/-- All of a run is cut that holds spaces only. -/
theorem cutSpaces_of_all {n : Nat} (h : H.all isSpace = true) (hle : H.length ≤ n) :
    cutSpaces n H = (H, []) := by
  induction n generalizing H with
  | zero => rw [List.length_eq_zero_iff.mp (Nat.le_zero.mp hle)]; rfl
  | succ n ih =>
    cases H with
    | nil => rfl
    | cons g rest =>
      rw [List.all_cons, Bool.and_eq_true] at h
      rw [cutSpaces, if_pos h.1, ih h.2 (Nat.le_of_succ_le_succ hle)]

theorem cutSpaces_append_of_length {W : List Glyph} (h : W.all isSpace = true) (M : List Glyph) :
    cutSpaces W.length (W ++ M) = (W, M) := by
  have hself := cutSpaces_of_all h (Nat.le_refl W.length)
  rw [cutSpaces_append_of (Or.inr (by rw [hself])), hself, List.nil_append]

/-- The glyphs of a text stand for it. -/
theorem textFrom_glyphsAt (t : List Char) : ∀ (place column : Nat) (last : Option Nat),
    textFrom last (glyphsAt place column t) = t := by
  induction t with
  | nil => exact fun _ _ _ => rfl
  | cons c rest ih =>
    intro place column last
    rw [glyphsAt]
    split
    · next hc =>
      obtain ⟨w, hw⟩ : ∃ w, tabWidth - column % tabWidth = w + 1 :=
        ⟨tabWidth - column % tabWidth - 1, by
          have := Nat.mod_lt column (show tabWidth > 0 by decide)
          omega⟩
      simp only [Line.tabColumns, hw, List.range_succ_eq_map, List.map_cons, List.map_map,
        List.cons_append, textFrom]
      rw [textFrom_columns, ih, hc]
      · rfl
      · intro g hg
        obtain ⟨i, -, rfl⟩ := List.mem_map.mp hg
        exact ⟨rfl, rfl⟩
    · rw [textFrom, ih]
      rfl

theorem text_glyphsAt (place column : Nat) (t : List Char) : text (glyphsAt place column t) = t :=
  textFrom_glyphsAt t place column none

end Glyph

theorem exists_glyphsAt_append (place column : Nat) (s t : List Char) :
    ∃ column', glyphsAt place column (s ++ t) =
      glyphsAt place column s ++ glyphsAt (place + byteLength s) column' t := by
  induction s generalizing place column with
  | nil => exact ⟨column, rfl⟩
  | cons c rest ih =>
    rw [List.cons_append, glyphsAt, glyphsAt, byteLength]
    split
    · next hc =>
      obtain ⟨column', h⟩ :=
        ih (place + 1) (column + (Line.tabColumns place column none none).length)
      have hsize : place + (c.utf8Size + byteLength rest) = place + 1 + byteLength rest := by
        rw [hc, ← Nat.add_assoc]
        rfl
      exact ⟨column', by rw [h, hsize, List.append_assoc]⟩
    · obtain ⟨column', h⟩ := ih (place + c.utf8Size) (column + c.utf8Size)
      exact ⟨column', by rw [h, ← Nat.add_assoc, List.cons_append]⟩

/-! ## Containers that hold something -/

namespace Container

/-- A container that holds something goes on as it is. -/
theorem eq_of_continue? (hc : c.settle = c) (h : c.continue? gs = some (c', rest)) : c' = c := by
  cases c with
  | quote =>
    obtain ⟨_, -, hr⟩ := Option.map_eq_some_iff.mp h
    exact (Prod.mk.inj hr).1.symm
  | item marker width bare =>
    obtain rfl : false = bare := (item.inj hc).2.2
    unfold continue? at h
    dsimp only at h
    split at h
    · exact (Prod.mk.inj (Option.some.inj h)).1.symm
    · obtain ⟨_, -, hr⟩ := Option.map_eq_some_iff.mp h
      exact (Prod.mk.inj hr).1.symm
  | footnote label =>
    unfold continue? at h
    dsimp only at h
    split at h
    · exact (Prod.mk.inj (Option.some.inj h)).1.symm
    · obtain ⟨_, -, hr⟩ := Option.map_eq_some_iff.mp h
      exact (Prod.mk.inj hr).1.symm

theorem suffix_of_takeFront? (h : c.takeFront? H = some front) : front <:+ H := by
  have hindent : ∀ width, takeIndent? width H = some front → front <:+ H := by
    intro width h
    unfold takeIndent? at h
    dsimp only at h
    split at h
    · rw [← Option.some.inj h]
      exact Glyph.cutSpaces_suffix width H
    · cases h
  cases c with
  | quote => exact (suffix_of_takeQuote? h).1
  | item marker width bare => exact hindent _ h
  | footnote label => exact hindent _ h

/-- The mark of a quote is taken with the space behind it, so nothing is taken from what follows a
front that does not end with the mark. -/
theorem takeQuote?_append_of (h : takeQuote? H = some front)
    (hlast : ∀ g ∈ H.getLast?, g.char ≠ '>') (M : List Glyph) :
    takeQuote? (H ++ M) = some (front ++ M) := by
  have hself := Glyph.cutSpaces_append_self indentMax H
  unfold takeQuote? at h ⊢
  cases hcut : (Glyph.cutSpaces indentMax H).2 with
  | nil =>
    rw [hcut] at h
    cases h
  | cons q rest =>
    rw [hcut] at h hself
    rw [Glyph.cutSpaces_append_of (Or.inl (by rw [hcut]; exact List.cons_ne_nil q rest)), hcut]
    dsimp only at h ⊢
    rw [List.cons_append]
    dsimp only
    split at h
    · next hq =>
      obtain rfl := Option.some.inj h
      have hrest : (Glyph.cutSpaces 1 rest).2 ≠ [] ∨ (Glyph.cutSpaces 1 rest).1.length = 1 := by
        cases rest with
        | nil =>
          refine absurd hq (hlast q ?_)
          rw [← hself, List.getLast?_append]
          rfl
        | cons r more =>
          rw [Glyph.cutSpaces]
          split
          · exact Or.inr rfl
          · exact Or.inl (List.cons_ne_nil r more)
      rw [if_pos hq, Glyph.cutSpaces_append_of hrest]
    · cases h

/-- A container that holds something goes on with every line that has the front in front. -/
theorem continue?_front (hc : c.settle = c) (h : c.takeFront? H = some front)
    (hlast : ∀ g ∈ H.getLast?, g.char ≠ '>') (M : List Glyph) :
    c.continue? (H ++ M) = some (c, front ++ M) := by
  have hindent : ∀ width, takeIndent? width H = some front →
      (Glyph.cutSpaces width (H ++ M)).2 = front ++ M ∧
        takeIndent? width (H ++ M) = some (front ++ M) := by
    intro width h
    unfold takeIndent? at h ⊢
    dsimp only at h ⊢
    split at h
    · next hlength =>
      obtain rfl := Option.some.inj h
      rw [Glyph.cutSpaces_append_of (Or.inr hlength)]
      exact ⟨rfl, if_pos hlength⟩
    · cases h
  cases c with
  | quote => rw [continue?, takeQuote?_append_of h hlast M, Option.map_some]
  | item marker width bare =>
    obtain rfl : false = bare := (item.inj hc).2.2
    obtain ⟨hcut, htake⟩ := hindent width h
    rw [continue?, hcut, htake]
    simp
  | footnote label =>
    obtain ⟨hcut, htake⟩ := hindent Glyph.tabWidth h
    rw [continue?, hcut, htake]
    simp

/-- A container that holds something goes on with a front that lost spaces at its end. -/
theorem exists_continue?_trimmed (hc : c.settle = c) (h : c.takeFront? (H ++ Z) = some front)
    (hZ : Z.all Glyph.isSpace = true) :
    ∃ H' Z', c.continue? H = some (c, H') ∧ front = H' ++ Z' ∧ Z'.all Glyph.isSpace = true := by
  have hindent : ∀ width, takeIndent? width (H ++ Z) = some front →
      (∃ Z', front = (Glyph.cutSpaces width H).2 ++ Z' ∧ Z'.all Glyph.isSpace = true) ∧
        (H.all Glyph.isSpace = false → takeIndent? width H = some (Glyph.cutSpaces width H).2) := by
    intro width h
    unfold takeIndent? at h ⊢
    dsimp only at h ⊢
    split at h
    · next hlength =>
      obtain rfl := Option.some.inj h
      refine ⟨Glyph.exists_cutSpaces_append hZ width H, fun hblank => ?_⟩
      have hself := Glyph.cutSpaces_append_self width H
      have hleft : (Glyph.cutSpaces width H).2 ≠ [] := by
        intro hnil
        rw [hnil, List.append_nil] at hself
        have hall : H.all Glyph.isSpace = true := List.all_eq_true.mpr fun g hg =>
          Glyph.isSpace_of_mem_cutSpaces (hself ▸ hg)
        rw [hall] at hblank
        cases hblank
      rw [Glyph.cutSpaces_append_of (Or.inl hleft)] at hlength
      exact if_pos hlength
    · cases h
  cases c with
  | quote =>
    obtain ⟨Z', hcut, hZ'⟩ := Glyph.exists_cutSpaces_append hZ indentMax H
    have htake : takeQuote? (H ++ Z) = some front := h
    unfold takeQuote? at htake
    rw [hcut] at htake
    unfold continue? takeQuote?
    cases hleft : (Glyph.cutSpaces indentMax H).2 with
    | nil =>
      -- nothing but spaces is left, and none of them marks a quote
      rw [hleft, List.nil_append] at htake
      cases Z' with
      | nil => cases htake
      | cons q rest =>
        dsimp only at htake
        split at htake
        · next hq =>
          rw [List.all_cons, Bool.and_eq_true] at hZ'
          simp [Glyph.isSpace, hq] at hZ'
        · cases htake
    | cons q rest =>
      rw [hleft, List.cons_append] at htake
      dsimp only at htake ⊢
      split at htake
      · next hq =>
        obtain rfl := Option.some.inj htake
        rw [if_pos hq]
        obtain ⟨Z'', hrest, hZ''⟩ := Glyph.exists_cutSpaces_append hZ' 1 rest
        exact ⟨_, Z'', rfl, hrest, hZ''⟩
      · cases htake
  | item marker width bare =>
    obtain rfl : false = bare := (item.inj hc).2.2
    obtain ⟨⟨Z', hfront, hZ'⟩, htake⟩ := hindent width h
    refine ⟨_, Z', ?_, hfront, hZ'⟩
    rw [continue?]
    cases hblank : H.all Glyph.isSpace with
    | true => rfl
    | false =>
      rw [htake hblank]
      rfl
  | footnote label =>
    obtain ⟨⟨Z', hfront, hZ'⟩, htake⟩ := hindent Glyph.tabWidth h
    refine ⟨_, Z', ?_, hfront, hZ'⟩
    rw [continue?]
    cases hblank : H.all Glyph.isSpace with
    | true => rfl
    | false =>
      rw [htake hblank]
      rfl

/-- An item that starts in front of something holds it. -/
theorem settle_of_open? {interrupting : Bool} {rest : List Glyph}
    (h : open? interrupting gs = some (c, rest)) (hrest : rest.all Glyph.isSpace = false) :
    c.settle = c := by
  unfold open? at h
  rcases Option.or_eq_some_iff.mp h with h | ⟨-, h⟩
  · obtain ⟨_, -, heq⟩ := Option.map_eq_some_iff.mp h
    rw [← (Prod.mk.inj heq).1]
    rfl
  rcases Option.or_eq_some_iff.mp h with h | ⟨-, h⟩
  · unfold openItem? at h
    obtain ⟨⟨marker, length⟩, -, h⟩ := Option.bind_eq_some_iff.mp h
    dsimp only at h
    split at h
    · next hblank =>
      split at h
      · cases h
      · obtain ⟨-, rfl⟩ := Prod.mk.inj (Option.some.inj h)
        rw [hblank] at hrest
        cases hrest
    · split at h
      · cases h
      · rw [← (Prod.mk.inj (Option.some.inj h)).1]
        rfl
  · unfold openFootnote? at h
    split at h
    · split at h
      · obtain ⟨_, -, h⟩ := Option.bind_eq_some_iff.mp h
        obtain ⟨_, -, heq⟩ := Option.map_eq_some_iff.mp h
        rw [← (Prod.mk.inj heq).1]
        rfl
      · cases h
    · cases h

end Container

namespace Outline

/-- Containers that hold something go on with every line that has their front in front. -/
theorem continued_front (hcs : ∀ c ∈ cs, c.settle = c) (h : (takeFronts cs H).1.length = cs.length)
    (hlast : ∀ g ∈ H.getLast?, g.char ≠ '>') (M : List Glyph) :
    continued cs (H ++ M) = (cs, (takeFronts cs H).2 ++ M) := by
  induction cs generalizing H with
  | nil => rfl
  | cons c rest ih =>
    obtain ⟨hc, hrest⟩ := List.forall_mem_cons.mp hcs
    rw [takeFronts] at h ⊢
    cases htake : c.takeFront? H with
    | none =>
      rw [htake] at h
      cases h
    | some front =>
      rw [htake] at h
      have hsuffix := Container.suffix_of_takeFront? htake
      have hfront : ∀ g ∈ front.getLast?, g.char ≠ '>' := by
        obtain ⟨before, rfl⟩ := hsuffix
        intro g hg
        refine hlast g ?_
        rw [List.getLast?_append, Option.mem_def.mp hg]
        rfl
      rw [continued, Container.continue?_front hc htake hlast M]
      dsimp only
      rw [ih hrest (Nat.succ.inj h) hfront]

/-- Containers that hold something go on with their front when spaces at its end were trimmed. -/
theorem exists_continued_trimmed (hcs : ∀ c ∈ cs, c.settle = c)
    (h : (takeFronts cs (H ++ Z)).1.length = cs.length) (hZ : Z.all Glyph.isSpace = true) :
    ∃ W Z', continued cs H = (cs, W) ∧ (takeFronts cs (H ++ Z)).2 = W ++ Z' := by
  induction cs generalizing H Z with
  | nil => exact ⟨H, Z, rfl, rfl⟩
  | cons c rest ih =>
    obtain ⟨hc, hrest⟩ := List.forall_mem_cons.mp hcs
    rw [takeFronts] at h ⊢
    cases htake : c.takeFront? (H ++ Z) with
    | none =>
      rw [htake] at h
      cases h
    | some front =>
      rw [htake] at h
      obtain ⟨H', Z', hcontinue, rfl, hZ'⟩ := Container.exists_continue?_trimmed hc htake hZ
      obtain ⟨W, Z'', hcontinued, hleft⟩ := ih hrest (Nat.succ.inj h) hZ'
      refine ⟨W, Z'', ?_, hleft⟩
      rw [continued, hcontinue]
      dsimp only
      rw [hcontinued]

/-- Containers that only differ in whether they hold something take the same off a line. -/
theorem takeFronts_settle (cs : List Container) (H : List Glyph) :
    takeFronts (cs.map Container.settle) H = takeFronts cs H := by
  induction cs generalizing H with
  | nil => rfl
  | cons c rest ih =>
    have htake : c.settle.takeFront? H = c.takeFront? H := by cases c <;> rfl
    have hsettle : c.settle.settle = c.settle := by cases c <;> rfl
    rw [List.map_cons, takeFronts, takeFronts, htake, hsettle]
    cases c.takeFront? H with
    | none => rfl
    | some front =>
      dsimp only
      rw [ih]

theorem takeFronts_shifted (d : Nat) (cs : List Container) (H : List Glyph) :
    takeFronts cs (shifted d H) = ((takeFronts cs H).1, shifted d (takeFronts cs H).2) := by
  induction cs generalizing H with
  | nil => rfl
  | cons c rest ih =>
    have htake : c.takeFront? (shifted d H) = (c.takeFront? H).map (shifted d) := by
      cases c <;> simp [Container.takeFront?]
    rw [takeFronts, takeFronts, htake]
    cases c.takeFront? H with
    | none => rfl
    | some front =>
      rw [Option.map_some]
      dsimp only
      rw [ih]

theorem takeFronts_fst {cs : List Container} {H : List Glyph}
    (h : (takeFronts cs H).1.length = cs.length) :
    (takeFronts cs H).1 = cs.map Container.settle := by
  induction cs generalizing H with
  | nil => rfl
  | cons c rest ih =>
    rw [takeFronts] at h ⊢
    cases htake : c.takeFront? H with
    | none =>
      rw [htake] at h
      cases h
    | some front =>
      rw [htake] at h
      dsimp only at h ⊢
      rw [List.length_cons, List.length_cons] at h
      rw [ih (Nat.succ.inj h), List.map_cons]

/-- Containers that hold something go on as they are. -/
theorem fst_continued (hcs : ∀ c ∈ cs, c.settle = c) (gs : List Glyph) :
    (continued cs gs).1 = cs.take (continued cs gs).1.length := by
  induction cs generalizing gs with
  | nil => rfl
  | cons c rest ih =>
    obtain ⟨hc, hrest⟩ := List.forall_mem_cons.mp hcs
    rw [continued]
    cases h : c.continue? gs with
    | none => rfl
    | some result =>
      obtain ⟨c', left⟩ := result
      dsimp only
      rw [Container.eq_of_continue? hc h, List.length_cons, List.take_succ_cons, ← ih hrest left]

theorem Keeps.kept_eq {o : Outline} {l : Line} (h : o.Keeps l)
    (hcs : ∀ c ∈ o.containers, c.settle = c) :
    o.kept l = o.containers := by
  rw [kept, fst_continued (fun c hc => hcs c (List.mem_reverse.mp hc)),
    show (continued o.containers.reverse l.glyphs).1.length = _ from h, ← List.length_reverse,
    List.take_length, List.reverse_reverse]

/-! ## Margins -/

variable {indent : Nat} {margin : List Char}

theorem glyphsAt_eq_shifted (place : Nat) (text : List Char) :
    glyphsAt place 0 text = shifted place (glyphsAt 0 0 text) := by
  rw [← glyphsAt_shift, Nat.zero_add]

theorem indents_shifted_iff {d : Nat} {W : List Glyph} : Indents (shifted d W) ↔ Indents W := by
  have hself := Glyph.cutSpaces_append_self indentMax W
  unfold Indents
  rw [Glyph.cutSpaces_shifted]
  constructor
  · intro h
    have hnil : (Glyph.cutSpaces indentMax W).2 = [] := List.map_eq_nil_iff.mp (congrArg Prod.snd h)
    rw [hnil, List.append_nil] at hself
    exact Prod.ext hself hnil
  · intro h
    rw [h]
    rfl

/-- What stands in front of the lines of containers: they take it off a line, up to spaces that a
marker may stand behind, and go on. -/
def IsMargin (cs : List Container) (margin : List Char) : Prop :=
  ∀ (containers : List Container) place M,
    containers.map Container.settle = cs.map Container.settle → Solid M →
    ∃ W, Indents W ∧ continued containers.reverse (glyphsAt place 0 margin ++ M) =
      ((containers.map Container.settle).reverse, W ++ M)

theorem isMargin_of_takeFronts
    (hfront : (takeFronts cs.reverse (glyphsAt 0 0 margin)).1.length = cs.length)
    (hindents : Indents (takeFronts cs.reverse (glyphsAt 0 0 margin)).2) : IsMargin cs margin := by
  have hfst := takeFronts_fst (hfront.trans (List.length_reverse ..).symm)
  intro containers place M hsame hM
  have hcs : takeFronts containers.reverse (glyphsAt 0 0 margin) =
      takeFronts cs.reverse (glyphsAt 0 0 margin) := by
    rw [← takeFronts_settle containers.reverse, List.map_reverse, hsame, ← List.map_reverse,
      takeFronts_settle]
  refine ⟨shifted place (takeFronts cs.reverse (glyphsAt 0 0 margin)).2,
    indents_shifted_iff.mpr hindents, ?_⟩
  rw [continued_append hM, glyphsAt_eq_shifted, takeFronts_shifted, hcs, hfst, hsame,
    List.map_reverse]

/-- What the containers take off in front of a marker, and the spaces behind it, are a margin of
theirs. -/
theorem isMargin_of_continued {place : Nat} {front : List Char} {W ms : List Glyph} {g : Glyph}
    (hg : g.isTick = true) (hW : Indents W)
    (hkeeps : (continued cs.reverse (glyphsAt place 0 front ++ g :: ms)).1.length = cs.length)
    (hleft : (continued cs.reverse (glyphsAt place 0 front ++ g :: ms)).2 = W ++ g :: ms) :
    IsMargin cs front := by
  rw [continued_append (solid_of_isTick hg ms), glyphsAt_eq_shifted, takeFronts_shifted]
    at hkeeps hleft
  dsimp only at hkeeps hleft
  refine isMargin_of_takeFronts hkeeps (indents_shifted_iff.mp (?_ : Indents (shifted place _)))
  rw [List.append_cancel_right hleft]
  exact hW

/-! ## Margins that are aligned with a fence -/

/-- The containers take a margin off a line and leave as many spaces as the fence in them is
indented by, which a marker may stand behind. The margin does not end with the mark of a quote,
which would take a space of what stands behind the margin. -/
structure Aligned (cs : List Container) (indent : Nat) (margin : List Char) : Prop where
  front : (takeFronts cs.reverse (glyphsAt 0 0 margin)).1.length = cs.length
  spaces : (takeFronts cs.reverse (glyphsAt 0 0 margin)).2.all Glyph.isSpace = true
  width : (takeFronts cs.reverse (glyphsAt 0 0 margin)).2.length = indent
  indent : indent ≤ indentMax
  last : margin.getLast? ≠ some '>'

instance (cs : List Container) (indent : Nat) (margin : List Char) :
    Decidable (Aligned cs indent margin) :=
  decidable_of_iff
    ((takeFronts cs.reverse (glyphsAt 0 0 margin)).1.length = cs.length ∧
      (takeFronts cs.reverse (glyphsAt 0 0 margin)).2.all Glyph.isSpace = true ∧
      (takeFronts cs.reverse (glyphsAt 0 0 margin)).2.length = indent ∧ indent ≤ indentMax ∧
      margin.getLast? ≠ some '>')
    ⟨fun ⟨h₁, h₂, h₃, h₄, h₅⟩ => ⟨h₁, h₂, h₃, h₄, h₅⟩,
      fun ⟨h₁, h₂, h₃, h₄, h₅⟩ => ⟨h₁, h₂, h₃, h₄, h₅⟩⟩

theorem last_glyphsAt (h : margin.getLast? ≠ some '>') (place column : Nat) :
    ∀ g ∈ (glyphsAt place column margin).getLast?, g.char ≠ '>' := by
  rcases List.eq_nil_or_concat margin with rfl | ⟨before, c, rfl⟩
  · intro g hg
    cases hg
  · obtain ⟨column', hglyphs⟩ := exists_glyphsAt_append place column before [c]
    have hspelled := spelled_glyphsAt (place + byteLength before) column' [c]
    have hne : glyphsAt (place + byteLength before) column' [c] ≠ [] := fun hnil => by
      have hempty := hspelled.isEmpty
      rw [hnil] at hempty
      cases hempty
    intro g hg hquote
    rw [List.concat_eq_append, hglyphs, List.getLast?_append_of_ne_nil _ hne] at hg
    have hmem := List.mem_of_getLast? hg
    rw [List.concat_eq_append, List.getLast?_concat] at h
    generalize glyphsAt (place + byteLength before) column' [c] = gs at hspelled hmem
    cases hspelled with
    | char _ hk _ hrest =>
      cases hrest
      rw [List.mem_singleton.mp hmem] at hquote
      exact h (congrArg some (hk.symm.trans hquote))
    | tab hk _ hcolumns hrest =>
      cases hrest
      rw [List.append_nil] at hmem
      rcases List.mem_cons.mp hmem with rfl | hmem
      · rw [hk] at hquote
        cases hquote
      · rw [(hcolumns g hmem).1] at hquote
        cases hquote

namespace Aligned

theorem takeFronts_glyphsAt (h : Aligned cs indent margin) (place : Nat) :
    (takeFronts cs.reverse (glyphsAt place 0 margin)).1.length = cs.reverse.length ∧
      (takeFronts cs.reverse (glyphsAt place 0 margin)).2.all Glyph.isSpace = true ∧
      (takeFronts cs.reverse (glyphsAt place 0 margin)).2.length = indent := by
  have hspaces : ∀ W : List Glyph, (shifted place W).all Glyph.isSpace = W.all Glyph.isSpace :=
    fun W => List.all_map
  rw [glyphsAt_eq_shifted, takeFronts_shifted, hspaces, shifted, List.length_map,
    List.length_reverse]
  exact ⟨h.front, h.spaces, h.width⟩

theorem isMargin (h : Aligned cs indent margin) : IsMargin cs margin :=
  isMargin_of_takeFronts h.front (Glyph.cutSpaces_of_all h.spaces (h.width.trans_le h.indent))

/-- An aligned margin may stand in front of anything. -/
theorem exists_continued (h : Aligned cs indent margin) (hcs : ∀ c ∈ cs, c.settle = c) (place : Nat)
    (text : List Char) : ∃ W column, W.all Glyph.isSpace = true ∧ W.length = indent ∧
      continued cs.reverse (glyphsAt place 0 (margin ++ text)) =
        (cs.reverse, W ++ glyphsAt (place + byteLength margin) column text) := by
  obtain ⟨column, hglyphs⟩ := exists_glyphsAt_append place 0 margin text
  obtain ⟨hfront, hspaces, hwidth⟩ := h.takeFronts_glyphsAt place
  refine ⟨_, column, hspaces, hwidth, ?_⟩
  rw [hglyphs, continued_front (fun c hc => hcs c (List.mem_reverse.mp hc)) hfront
    (last_glyphsAt h.last place 0)]

/-- An aligned margin without blanks at its end may stand in front of nothing. -/
theorem exists_continued_trimmed {front blanks : List Char}
    (h : Aligned cs indent (front ++ blanks)) (hcs : ∀ c ∈ cs, c.settle = c)
    (hblanks : ∀ c ∈ blanks, c = ' ' ∨ c = '\t') (place : Nat) :
    ∃ W, W.all Glyph.isSpace = true ∧ W.length ≤ indent ∧
      continued cs.reverse (glyphsAt place 0 front) = (cs.reverse, W) := by
  obtain ⟨column, hglyphs⟩ := exists_glyphsAt_append place 0 front blanks
  obtain ⟨hfront, hspaces, hwidth⟩ := h.takeFronts_glyphsAt place
  have hZ : (glyphsAt (place + byteLength front) column blanks).all Glyph.isSpace = true := by
    have hall := (spelled_glyphsAt (place + byteLength front) column blanks).all_eq
      (p := fun c => c = ' ' || c = '\t') rfl
    have htrue : blanks.all (fun c => c = ' ' || c = '\t') = true :=
      List.all_eq_true.mpr fun c hc => by simpa using hblanks c hc
    rw [htrue] at hall
    exact hall
  rw [hglyphs] at hfront hspaces hwidth
  obtain ⟨W, Z, hcontinued, hleft⟩ :=
    Outline.exists_continued_trimmed (fun c hc => hcs c (List.mem_reverse.mp hc)) hfront hZ
  rw [hleft] at hspaces hwidth
  rw [List.all_append, Bool.and_eq_true] at hspaces
  rw [List.length_append] at hwidth
  exact ⟨W, hspaces.1, hwidth ▸ Nat.le_add_right _ _, hcontinued⟩

/-- An aligned margin holds spaces, tabs and the marks of quotes. -/
theorem blank_or_quote (h : Aligned cs indent margin) :
    ∀ c ∈ margin, c = ' ' ∨ c = '\t' ∨ c = '>' := by
  intro c hc
  -- in front of something solid the containers take nothing else
  have hsolid : Solid [⟨'`', ['`'], 0, 0, 0, none, none⟩] := solid_of_isTick rfl []
  obtain ⟨front, hfront, hall⟩ := exists_front_of_continued cs.reverse (glyphsAt 0 0 margin ++ _)
  rw [continued_append hsolid, ← List.append_assoc] at hfront
  obtain ⟨g, hg, rfl⟩ := (spelled_glyphsAt 0 0 margin).exists_mem hc
  rw [List.append_cancel_right hfront] at hg
  have hspace : g.isSpace = true ∨ g.char = '>' := by
    rcases List.mem_append.mp hg with hg | hg
    · exact hall g hg
    · exact Or.inl (List.all_eq_true.mp h.spaces g hg)
  simpa [Glyph.isSpace, or_assoc] using hspace

end Aligned

end Outline

end LiveDoc.Markdown
