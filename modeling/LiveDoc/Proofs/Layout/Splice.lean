import Mathlib.Data.List.Pairwise
import Mathlib.Data.List.Perm.Basic
import LiveDoc.Layout.Document
import LiveDoc.Proofs.Text.Slice
import LiveDoc.Proofs.Tree.Traversal

/-!
# Writing a document in one pass

A document is written by edits that are sorted and applied from the last one to the first, while the
text grows and shrinks. What comes out is said here without a sequence of edits: one pass over the
source from left to right writes the content of an edit where the edit starts, leaves out the rest
of its span, and copies every other character (`weave`).

* **pass** — the pass asks for each place which edit covers it; the order of the edits does not
  matter when no two of them cover the same place (`Fits.weave_perm`);
* **step** — the last edit of a text changes nothing in front of its span (`Text.splice_parts`);
* **run** — so edits applied from the last to the first give what the pass gives
  (`applyEdits_eq_weave`);
* **document** — an edit that changes nothing may be left out (`Fits.weave_sublist`), and a document
  is written in one pass with the replacements of its changed fences and its paragraphs
  (`render_eq_weave`).
-/

namespace LiveDoc

open Text (Span Parts byteLength takeBytes dropBytes slice splice)

namespace Layout

/-! ## The pass -/

/-- What a pass writes for the character at a place. -/
def written (edits : List Edit) (place : Nat) (c : Char) : List Char :=
  match edits.find? (·.span.contains place) with
  | none => [c]
  | some e => if place = e.span.start then e.content else []

/-- A pass over a text from left to right, which starts at `place`. -/
def weave (edits : List Edit) : (place : Nat) → List Char → List Char
  | _, [] => []
  | place, c :: rest => written edits place c ++ weave edits (place + c.utf8Size) rest

/-- One span ends before the other one starts. -/
def Apart (a b : Span) : Prop := a.stop ≤ b.start ∨ b.stop ≤ a.start

/-- The spans of edits can be cut out of the source, are not empty, and have nothing in common. -/
structure Fits (source : List Char) (edits : List Edit) : Prop where
  inside : ∀ e ∈ edits, ∃ old, slice source e.span = some old
  nonempty : ∀ e ∈ edits, e.span.start < e.span.stop
  apart : edits.Pairwise fun a b => Apart a.span b.span

variable {source : List Char} {edits : List Edit} {e : Edit}

theorem weave_append (place : Nat) (s t : List Char) :
    weave edits place (s ++ t) = weave edits place s ++ weave edits (place + byteLength s) t := by
  induction s generalizing place with
  | nil => simp [weave, byteLength]
  | cons c rest ih =>
    simp only [List.cons_append, weave, ih, byteLength, List.append_assoc, Nat.add_assoc]

/-- Two passes agree when they agree at every place. -/
theorem weave_congr {edits' : List Edit} {place : Nat} {s : List Char}
    (h : ∀ p, place ≤ p → p < place + byteLength s → ∀ c, written edits p c = written edits' p c) :
    weave edits place s = weave edits' place s := by
  induction s generalizing place with
  | nil => rfl
  | cons c rest ih =>
    have hc := c.utf8Size_pos
    rw [byteLength] at h
    rw [weave, weave, h place (Nat.le_refl _) (by omega),
      ih fun p hp hlt => h p (by omega) (by omega)]

/-- Places that no edit covers are copied. -/
theorem weave_copy {place : Nat} {s : List Char}
    (h : ∀ e ∈ edits, e.span.stop ≤ place ∨ place + byteLength s ≤ e.span.start) :
    weave edits place s = s := by
  induction s generalizing place with
  | nil => rfl
  | cons c rest ih =>
    have hc := c.utf8Size_pos
    rw [byteLength] at h
    have hnone : edits.find? (·.span.contains place) = none := by
      rw [List.find?_eq_none]
      intro e he hcontains
      rw [Span.contains_iff] at hcontains
      rcases h e he with hbefore | hbehind <;> omega
    have hrest : weave edits (place + c.utf8Size) rest = rest := ih fun e he => by
      rcases h e he with hbefore | hbehind
      · exact .inl (by omega)
      · exact .inr (by omega)
    rw [weave, written, hnone, hrest]
    rfl

/-- The first edit of the list writes its content for the places that it covers. -/
theorem weave_covered {s : List Char} (hne : e.span.start < e.span.stop)
    (hlen : e.span.stop = e.span.start + byteLength s) :
    weave (e :: edits) e.span.start s = e.content := by
  -- the content is written where the span starts, so further in there is nothing left to write
  have hskip : ∀ (rest : List Char) (place : Nat), e.span.start < place →
      e.span.stop = place + byteLength rest → weave (e :: edits) place rest = [] := by
    intro rest
    induction rest with
    | nil => intros; rfl
    | cons c rest ih =>
      intro place hplace hstop
      rw [byteLength] at hstop
      have hc := c.utf8Size_pos
      have hfind : (e :: edits).find? (·.span.contains place) = some e :=
        List.find?_cons_of_pos (Span.contains_iff.mpr ⟨by omega, by omega⟩)
      rw [weave, written, hfind, ih _ (by omega) (by omega)]
      simp only [List.append_nil, ite_eq_right_iff]
      omega
  cases s with
  | nil =>
    rw [byteLength] at hlen
    omega
  | cons c rest =>
    rw [byteLength] at hlen
    have hc := c.utf8Size_pos
    have hfind : (e :: edits).find? (·.span.contains e.span.start) = some e :=
      List.find?_cons_of_pos (Span.contains_iff.mpr ⟨Nat.le_refl _, hne⟩)
    rw [weave, written, hfind, hskip rest _ (by omega) (by omega)]
    simp

/-! ## The order of edits -/

theorem Apart.symm {a b : Span} (h : Apart a b) : Apart b a := Or.symm h

instance : Std.Symm fun a b : Edit => Apart a.span b.span := ⟨fun _ _ => Apart.symm⟩

/-- One edit covers a place, at most. -/
theorem Fits.unique (h : Fits source edits) {e e' : Edit} (he : e ∈ edits) (he' : e' ∈ edits)
    {place : Nat} (hc : e.span.contains place = true) (hc' : e'.span.contains place = true) :
    e = e' := by
  by_contra hne
  rw [Span.contains_iff] at hc hc'
  rcases h.apart.forall he he' hne with hbehind | hbefore
  · omega
  · omega

theorem Fits.perm {edits' : List Edit} (h : Fits source edits) (hperm : edits'.Perm edits) :
    Fits source edits' :=
  ⟨fun e he => h.inside e (hperm.mem_iff.mp he), fun e he => h.nonempty e (hperm.mem_iff.mp he),
    (hperm.pairwise_iff Apart.symm).mpr h.apart⟩

theorem Fits.sublist {edits' : List Edit} (h : Fits source edits) (hsub : edits'.Sublist edits) :
    Fits source edits' :=
  ⟨fun e he => h.inside e (hsub.mem he), fun e he => h.nonempty e (hsub.mem he),
    h.apart.sublist hsub⟩

/-- The pass does not depend on the order of the edits. -/
theorem Fits.weave_perm {edits' : List Edit} (h : Fits source edits) (hperm : edits'.Perm edits)
    (place : Nat) (s : List Char) : weave edits' place s = weave edits place s := by
  apply weave_congr
  intro p _ _ c
  unfold written
  cases hfind : edits.find? (·.span.contains p) with
  | none =>
    have hnone : edits'.find? (·.span.contains p) = none := by
      rw [List.find?_eq_none] at hfind ⊢
      exact fun e he => hfind e (hperm.mem_iff.mp he)
    rw [hnone]
  | some e =>
    have hcovers : e.span.contains p = true := by simpa using List.find?_some hfind
    have hmem := List.mem_of_find?_eq_some hfind
    cases hfind' : edits'.find? (·.span.contains p) with
    | none =>
      rw [List.find?_eq_none] at hfind'
      exact absurd hcovers (hfind' e (hperm.mem_iff.mpr hmem))
    | some e' =>
      have hcovers' : e'.span.contains p = true := by simpa using List.find?_some hfind'
      have hmem' := hperm.mem_iff.mp (List.mem_of_find?_eq_some hfind')
      rw [h.unique hmem hmem' hcovers hcovers']

/-! ## One edit -/

/-- The pass over a text with an edit: the content of the edit between what the other edits make of
the text before and behind it. -/
theorem weave_cons {before old after : List Char} (hne : e.span.start < e.span.stop)
    (hparts : Parts source e.span before old after) :
    weave (e :: edits) 0 source =
      weave edits 0 before ++ e.content ++ weave edits e.span.stop after := by
  have hstart := hparts.start
  have hstop := hparts.stop
  have hout : ∀ p, ¬ (e.span.start ≤ p ∧ p < e.span.stop) → ∀ c,
      written (e :: edits) p c = written edits p c := by
    intro p hp c
    rw [written, written, List.find?_cons_of_neg (by rwa [Span.contains_iff])]
  have hbefore : weave (e :: edits) 0 before = weave edits 0 before :=
    weave_congr fun p _ hlt => hout p (by omega)
  have hafter : weave (e :: edits) e.span.stop after = weave edits e.span.stop after :=
    weave_congr fun p hle _ => hout p (by omega)
  have hold : weave (e :: edits) e.span.start old = e.content := weave_covered hne (by omega)
  rw [hparts.whole, weave_append, weave_append, hbefore, Nat.zero_add, ← hstart, hold,
    show e.span.start + byteLength old = e.span.stop by omega, hafter, List.append_assoc]

/-- An edit that changes nothing can be left out. -/
theorem Fits.weave_same (h : Fits source (e :: edits))
    (hsame : slice source e.span = some e.content) :
    weave (e :: edits) 0 source = weave edits 0 source := by
  obtain ⟨before, after, hparts⟩ := Text.slice_eq_some_iff.mp hsame
  have hstart := hparts.start
  have hstop := hparts.stop
  have hcopy : weave edits e.span.start e.content = e.content := by
    apply weave_copy
    intro f hf
    rcases (List.pairwise_cons.mp h.apart).1 f hf with hbehind | hbefore
    · exact .inr (by omega)
    · exact .inl hbefore
  have hwhole := congrArg (weave edits 0) hparts.whole
  rw [weave_append, weave_append, Nat.zero_add, ← hstart, hcopy,
    show e.span.start + byteLength e.content = e.span.stop by omega] at hwhole
  rw [weave_cons (h.nonempty e List.mem_cons_self) hparts, hwhole, List.append_assoc]

/-- No edit comes twice. -/
theorem Fits.not_mem {front rest : List Edit} (h : Fits source (front ++ e :: rest)) :
    e ∉ rest := by
  intro he
  have hrest := (h.sublist (List.sublist_append_right front _)).apart
  have hne := h.nonempty e (by simp)
  rcases (List.pairwise_cons.mp hrest).1 e he with hbehind | hbefore
  · omega
  · omega

/-- Edits that change nothing can be left out. -/
theorem Fits.weave_sublist {real all : List Edit} (hsub : real.Sublist all) :
    ∀ front : List Edit, Fits source (front ++ all) →
      (∀ e ∈ all, e ∉ real → slice source e.span = some e.content) →
      weave (front ++ all) 0 source = weave (front ++ real) 0 source := by
  induction hsub with
  | slnil => exact fun _ _ _ => rfl
  | @cons real all e hsub ih =>
    intro front hfits hsame
    -- `e` is left out: in front of all others it is seen to change nothing
    have hmiddle : (e :: (front ++ all)).Perm (front ++ e :: all) := List.perm_middle.symm
    have hfits' := hfits.perm hmiddle
    have hnew : e ∉ real := fun he => hfits.not_mem (hsub.mem he)
    rw [← hfits.weave_perm hmiddle, hfits'.weave_same (hsame e List.mem_cons_self hnew)]
    exact ih front (hfits'.sublist (List.sublist_cons_self _ _)) fun f hf hfreal =>
      hsame f (List.mem_cons_of_mem e hf) hfreal
  | @cons_cons real all e hsub ih =>
    intro front hfits hsame
    -- `e` stays, as one more edit in front of those still to be compared
    have hrest := ih (front ++ [e])
    rw [List.append_assoc, List.append_assoc, List.singleton_append, List.singleton_append] at hrest
    refine hrest hfits ?_
    intro f hf hfreal
    have hfe : f ≠ e := by
      rintro rfl
      exact hfits.not_mem hf
    exact hsame f (List.mem_cons_of_mem e hf) (by simp [hfe, hfreal])

/-! ## Sorted edits -/

theorem insertEdit_perm (e : Edit) (edits : List Edit) :
    (insertEdit e edits).Perm (e :: edits) := by
  induction edits with
  | nil => exact .refl _
  | cons f rest ih =>
    rw [insertEdit]
    split
    · exact .refl _
    · exact (ih.cons f).trans (.swap e f rest)

theorem lastFirst_perm (edits : List Edit) : (lastFirst edits).Perm edits := by
  induction edits with
  | nil => exact .refl _
  | cons e rest ih => exact (insertEdit_perm e _).trans (ih.cons e)

/-- The edits start at ever smaller places. -/
def Descending (edits : List Edit) : Prop := edits.Pairwise fun a b => b.span.start ≤ a.span.start

theorem descending_insertEdit (e : Edit) (h : Descending edits) :
    Descending (insertEdit e edits) := by
  induction edits with
  | nil => exact List.pairwise_singleton _ e
  | cons f rest ih =>
    obtain ⟨hf, hrest⟩ := List.pairwise_cons.mp h
    rw [insertEdit]
    split
    · next hle =>
      refine List.pairwise_cons.mpr ⟨?_, h⟩
      intro g hg
      rcases List.mem_cons.mp hg with rfl | hg
      · exact hle
      · exact Nat.le_trans (hf g hg) hle
    · next hlt =>
      refine List.pairwise_cons.mpr ⟨?_, ih hrest⟩
      intro g hg
      rcases List.mem_cons.mp ((insertEdit_perm e rest).mem_iff.mp hg) with rfl | hg
      · omega
      · exact hf g hg

theorem descending_lastFirst (edits : List Edit) : Descending (lastFirst edits) := by
  induction edits with
  | nil => exact .nil
  | cons e rest ih => exact descending_insertEdit e ih

/-- Edits that have nothing in common and start at ever smaller places end in front of those before
them. -/
theorem Fits.stop_le (h : Fits source edits) (hdesc : Descending edits) :
    edits.Pairwise fun a b => b.span.stop ≤ a.span.start := by
  refine (hdesc.and h.apart).imp_of_mem ?_
  rintro a b ha hb ⟨hle, hbehind | hbefore⟩
  · have hne := h.nonempty a ha
    have hne' := h.nonempty b hb
    omega
  · exact hbefore

/-! ## The run -/

/-- One edit that can be cut out of the text is applied. -/
theorem applyEdits_cons {text before old after : List Char}
    (hparts : Parts text e.span before old after) (rest : List Edit) :
    applyEdits text (e :: rest) = applyEdits (before ++ (e.content ++ after)) rest := by
  rw [applyEdits, List.foldl_cons, if_pos hparts.stop_le, Text.splice_parts hparts,
    List.append_assoc]
  rfl

/-- Edits of the front of a text, applied from the last to the first, give what the pass over the
front gives, and leave alone what follows. -/
theorem applyEdits_append_eq_weave {edits : List Edit} :
    ∀ front back : List Char, Fits front edits →
    Descending edits → applyEdits (front ++ back) edits = weave edits 0 front ++ back := by
  induction edits with
  | nil =>
    intro front back _ _
    rw [weave_copy (by simp)]
    rfl
  | cons e rest ih =>
    intro front back hfits hdesc
    obtain ⟨old, hold⟩ := hfits.inside e List.mem_cons_self
    obtain ⟨before, after, hparts⟩ := Text.slice_eq_some_iff.mp hold
    have hwhole : Parts (front ++ back) e.span before old (after ++ back) :=
      ⟨by rw [hparts.whole]; simp, hparts.start, hparts.stop⟩
    obtain ⟨hbefore, -⟩ := List.pairwise_cons.mp (hfits.stop_le hdesc)
    have hrest := hfits.sublist (List.sublist_cons_self e rest)
    -- the other edits lie in front of this one
    have hfront : Fits before rest := by
      refine ⟨?_, hrest.nonempty, hrest.apart⟩
      intro f hf
      obtain ⟨oldf, holdf⟩ := hrest.inside f hf
      rw [hparts.whole] at holdf
      exact ⟨oldf, Text.slice_front holdf (hparts.start ▸ hbefore f hf)⟩
    have hafter : weave rest e.span.stop after = after := by
      apply weave_copy
      intro f hf
      have hne := hfits.nonempty e List.mem_cons_self
      exact .inl (Nat.le_trans (hbefore f hf) (Nat.le_of_lt hne))
    rw [applyEdits_cons hwhole, ih before _ hfront hdesc.of_cons,
      weave_cons (hfits.nonempty e List.mem_cons_self) hparts, hafter]
    simp

/-- Edits of a text as a whole. -/
theorem applyEdits_of_descending (h : Fits source edits) (hdesc : Descending edits) :
    applyEdits source edits = weave edits 0 source := by
  have hrun := applyEdits_append_eq_weave source [] h hdesc
  rwa [List.append_nil, List.append_nil] at hrun

/-- Edits applied from the last to the first give what the pass gives. -/
theorem applyEdits_eq_weave (h : Fits source edits) :
    applyEdits source (lastFirst edits) = weave edits 0 source := by
  rw [applyEdits_of_descending (h.perm (lastFirst_perm edits)) (descending_lastFirst edits),
    h.weave_perm (lastFirst_perm edits)]

/-- An edit is applied: it does not end behind the text, it can be cut out of it, and its content
goes in its place while all else stays as it is. -/
structure Applied (text : List Char) (e : Edit) (result : List Char) : Prop where
  kept : e.span.stop ≤ byteLength text
  put : ∃ before after, takeBytes e.span.start text = some before ∧
    dropBytes e.span.stop text = some after ∧ result = before ++ e.content ++ after

/-- In a run over edits from the last to the first, each of them is applied in its turn. -/
theorem applied_of_descending {earlier later : List Edit} (h : Fits source (earlier ++ e :: later))
    (hdesc : Descending (earlier ++ e :: later)) :
    Applied (applyEdits source earlier) e (applyEdits source (earlier ++ [e])) := by
  have hsub : earlier.Sublist (earlier ++ e :: later) := List.sublist_append_left _ _
  obtain ⟨old, hold⟩ := h.inside e (by simp)
  obtain ⟨before, after, hparts⟩ := Text.slice_eq_some_iff.mp hold
  have hstart := hparts.start
  have hstop := hparts.stop
  have hbehind : ∀ f ∈ earlier, e.span.stop ≤ f.span.start := fun f hf =>
    (List.pairwise_append.mp (h.stop_le hdesc)).2.2 f hf e List.mem_cons_self
  -- the text in front of the span and in it is still as it was
  have htext : applyEdits source earlier = before ++ (old ++ weave earlier e.span.stop after) := by
    have hcopy : ∀ (place : Nat) (s : List Char), place + byteLength s ≤ e.span.stop →
        weave earlier place s = s := fun place s hle =>
      weave_copy fun f hf => .inr (Nat.le_trans hle (hbehind f hf))
    rw [applyEdits_of_descending (h.sublist hsub) (hdesc.sublist hsub), hparts.whole, weave_append,
      weave_append, Nat.zero_add, hcopy 0 before (by omega), hcopy _ old (by omega), hstop]
  have hparts' : Parts (applyEdits source earlier) e.span before old
      (weave earlier e.span.stop after) := ⟨htext, hstart, hstop⟩
  refine ⟨hparts'.stop_le, before, _, hparts'.cuts.1, hparts'.cuts.2, ?_⟩
  have hlast : applyEdits source (earlier ++ [e]) = applyEdits (applyEdits source earlier) [e] := by
    rw [applyEdits, List.foldl_append]
    rfl
  rw [hlast, applyEdits_cons hparts', List.append_assoc]
  rfl

/-! ## The edit of a paragraph -/

/-- What stands at the place of a tree is laid out. -/
structure LaidOut (options : Options) (source ending : List Char) (t : Tree) (span : Span)
    (old content : List Char) : Prop where
  placed : t.span = some span
  cut : slice source span = some old
  formatted : formatted? options ending old span.start t = some content

/-- A paragraph is edited when it is laid out as something else. -/
theorem paragraphEdit?_eq_some_iff {options : Options} {ending : List Char} {t : Tree} :
    paragraphEdit? options source ending t = some e ↔ t.isNamed "paragraph" = true ∧
      ∃ old, LaidOut options source ending t e.span old e.content ∧ e.content ≠ old := by
  constructor
  · intro h
    unfold paragraphEdit? at h
    split at h
    · next hnamed =>
      obtain ⟨span, hspan, h⟩ := Option.bind_eq_some_iff.mp h
      obtain ⟨old, hold, h⟩ := Option.bind_eq_some_iff.mp h
      obtain ⟨content, hcontent, h⟩ := Option.bind_eq_some_iff.mp h
      split at h
      · cases h
      · next hne =>
        cases h
        exact ⟨hnamed, old, ⟨hspan, hold, hcontent⟩, hne⟩
    · cases h
  · rintro ⟨hnamed, old, ⟨hspan, hold, hcontent⟩, hne⟩
    simp [paragraphEdit?, hnamed, hspan, hold, hcontent, hne]

end Layout

/-! ## Documents -/

open Layout

/-- Whether a node is a fence that differs from the one that was read. -/
def Tree.isChangedFence (t : Tree) : Bool := t.fence?.any fun f => f.isModified (t.body?.getD "")

namespace Document

/-- The nodes whose text can change: changed fences anywhere, and the paragraphs outside of all
other blocks. -/
def editable (d : Document) : List Tree :=
  d.root.preorder.filter (·.isChangedFence) ++ d.root.children.filter (·.isNamed "paragraph")

/-- What is written in the place of a node: the fence anew, or the paragraph laid out if it is to
be. -/
def replacement (d : Document) (options : Options) (t : Tree) (span : Span) (old : List Char) :
    List Char :=
  let ending := lineEnding none d.source.toList
  match t.fence? with
  | some fence => renderFence old fence (t.body?.getD "").toList ending
  | none => (formatted? options ending old span.start t).getD old

/-- The replacement of a node that has a place in the source. -/
def replacement? (d : Document) (options : Options) (t : Tree) : Option Edit :=
  t.span.bind fun span => (slice d.source.toList span).map fun old =>
    ⟨span, d.replacement options t span old⟩

/-- The replacements of all nodes whose text can change. -/
def replacements (d : Document) (options : Options) : List Edit :=
  d.editable.filterMap (d.replacement? options)

/-- The places of the nodes whose text can change lie in the source, on character boundaries, are
not empty, and have nothing in common. -/
structure Separable (d : Document) : Prop where
  inside : ∀ s ∈ d.editable.filterMap Tree.span, ∃ old, slice d.source.toList s = some old
  nonempty : ∀ s ∈ d.editable.filterMap Tree.span, s.start < s.stop
  apart : (d.editable.filterMap Tree.span).Pairwise Apart

variable {d : Document} {options : Options}

/-- The replacements are at the places of the nodes. -/
theorem spans_replacements (h : ∀ s ∈ d.editable.filterMap Tree.span,
    ∃ old, slice d.source.toList s = some old) :
    (d.replacements options).map (·.span) = d.editable.filterMap Tree.span := by
  unfold replacements
  generalize d.editable = nodes at h ⊢
  induction nodes with
  | nil => rfl
  | cons t rest ih =>
    cases hspan : t.span with
    | none =>
      rw [List.filterMap_cons_none hspan] at h ⊢
      rw [List.filterMap_cons_none (by simp [replacement?, hspan])]
      exact ih h
    | some span =>
      rw [List.filterMap_cons_some hspan] at h ⊢
      obtain ⟨⟨old, hold⟩, hrest⟩ := List.forall_mem_cons.mp h
      rw [List.filterMap_cons_some (by simp [replacement?, hspan, hold]; rfl), List.map_cons,
        ih hrest]

theorem Separable.fits (h : d.Separable) : Fits d.source.toList (d.replacements options) := by
  have hspans : (d.replacements options).map (·.span) = d.editable.filterMap Tree.span :=
    spans_replacements h.inside
  have hmem : ∀ e ∈ d.replacements options, e.span ∈ d.editable.filterMap Tree.span := by
    intro e he
    rw [← hspans]
    exact List.mem_map_of_mem he
  refine ⟨fun e he => h.inside _ (hmem e he), fun e he => h.nonempty _ (hmem e he), ?_⟩
  rw [← List.pairwise_map, hspans]
  exact h.apart

/-! ## The edits of a document -/

/-- A changed fence is edited with its replacement. -/
theorem fenceEdit?_eq (t : Tree) :
    fenceEdit? d.source.toList (lineEnding none d.source.toList) t =
      if t.isChangedFence then d.replacement? options t else none := by
  unfold fenceEdit? replacement? replacement Tree.isChangedFence
  cases t.fence? with
  | none => simp
  | some fence =>
    cases t.span with
    | none => simp
    | some span => simp

/-- A paragraph is edited with its replacement when that differs from the text there. -/
theorem paragraphEdit?_eq (t : Tree) :
    paragraphEdit? options d.source.toList (lineEnding none d.source.toList) t =
      if t.isNamed "paragraph" then
        (d.replacement? options t).filter fun e => slice d.source.toList e.span ≠ some e.content
      else none := by
  unfold paragraphEdit?
  split
  · next hname =>
    have hfence : t.fence? = none := by
      unfold Tree.isNamed at hname
      unfold Tree.fence?
      split at hname
      · next hkind => rw [hkind]
      · cases hname
    unfold replacement? replacement
    rw [hfence]
    cases t.span with
    | none => rfl
    | some span =>
      cases hold : slice d.source.toList span with
      | none => simp [hold]
      | some old =>
        simp only [Option.bind_some, Option.map_some, hold]
        cases formatted? options (lineEnding none d.source.toList) old span.start t with
        | none => simp [Option.filter_some, hold]
        | some content =>
          by_cases hsame : content = old
          · simp [Option.filter_some, hold, hsame]
          · simp [Option.filter_some, hold, hsame, Ne.symm hsame]
  · rfl

/-- The edits are the replacements but for paragraphs that stay as they are. -/
theorem edits_eq (d : Document) (options : Options) :
    d.edits options =
      (d.root.preorder.filter (·.isChangedFence)).filterMap (d.replacement? options) ++
        ((d.root.children.filter (·.isNamed "paragraph")).filterMap (d.replacement? options)).filter
          fun e => slice d.source.toList e.span ≠ some e.content := by
  unfold edits
  dsimp only
  rw [Tree.nodes_eq_preorder, List.filterMap_filter, List.filter_filterMap, List.filterMap_filter]
  congr 1
  · exact List.filterMap_congr fun t _ => fenceEdit?_eq t
  · refine List.filterMap_congr fun t _ => ?_
    rw [paragraphEdit?_eq]

theorem edits_sublist : (d.edits options).Sublist (d.replacements options) := by
  rw [edits_eq, replacements, editable, List.filterMap_append]
  exact (List.Sublist.refl _).append List.filter_sublist

/-- A replacement that is no edit is the text that is there. -/
theorem same_of_not_edit {e : Edit} (he : e ∈ d.replacements options) (hno : e ∉ d.edits options) :
    slice d.source.toList e.span = some e.content := by
  rw [edits_eq, List.mem_append, not_or, List.mem_filter, not_and] at hno
  rw [replacements, editable, List.filterMap_append, List.mem_append] at he
  rcases he with hfence | hparagraph
  · exact absurd hfence hno.1
  · simpa using hno.2 hparagraph

/-- **Writing is splicing, in one pass.** Where the changed fences and the paragraphs of a document
lie apart, the document is written by one pass over its source, whatever the order of the
replacements; so it does not matter where in the tree they were found. Each replacement that changes
something is applied in its turn, once, at a place where the text can be cut. -/
theorem render_eq_weave (options : Options) (h : d.Separable) :
    (∀ edits : List Edit, edits.Perm (d.replacements options) →
      d.render options = String.ofList (weave edits 0 d.source.toList)) ∧
    (∀ d' : Document, d'.Separable → d'.source = d.source →
      (d'.replacements options).Perm (d.replacements options) →
      d'.render options = d.render options) ∧
    (d.edits options).Sublist (d.replacements options) ∧
    (∀ e ∈ d.replacements options, e ∉ d.edits options →
      slice d.source.toList e.span = some e.content) ∧
    (lastFirst (d.edits options)).Perm (d.edits options) ∧
    ∀ earlier e later, lastFirst (d.edits options) = earlier ++ e :: later →
      Applied (applyEdits d.source.toList earlier) e
        (applyEdits d.source.toList (earlier ++ [e])) := by
  have hpass : ∀ {d : Document}, d.Separable → ∀ edits : List Edit,
      edits.Perm (d.replacements options) →
      d.render options = String.ofList (weave edits 0 d.source.toList) := by
    intro d h edits hperm
    -- the pass may run over all replacements, as those that are no edits change nothing
    have hall : Fits d.source.toList (d.replacements options) := h.fits
    have hsame := hall.weave_sublist edits_sublist [] fun e => same_of_not_edit
    rw [List.nil_append, List.nil_append] at hsame
    rw [render, applyEdits_eq_weave (hall.sublist edits_sublist), ← hsame, hall.weave_perm hperm]
  have hedits : Fits d.source.toList (lastFirst (d.edits options)) :=
    ((h.fits).sublist edits_sublist).perm (lastFirst_perm _)
  refine ⟨hpass h, ?_, edits_sublist, fun e => same_of_not_edit, lastFirst_perm _, ?_⟩
  · intro d' h' hsource hperm
    rw [hpass h' _ (List.Perm.refl _), hpass h _ hperm, hsource]
  · intro earlier e later hsplit
    have hdesc := descending_lastFirst (d.edits options)
    rw [hsplit] at hedits hdesc
    exact applied_of_descending hedits hdesc

/-- Two paragraphs and a changed fence, which the tree holds from the last one to the first. -/
def backwards : Document :=
  ⟨"é  x\n```\na\n```\nb  c\n", .mk .document none
    [.mk (.other "paragraph") (some ⟨16, 20⟩) [.leaf "b  c" none],
      .mk (.fence (.ofParsed none "" "a")) (some ⟨6, 15⟩) [.leaf "zz" none],
      .mk (.other "paragraph") (some ⟨0, 5⟩) [.leaf "é  x" none]]⟩

/-- The order in the tree is not the order in the source, and lengths change. -/
theorem render_backwards :
    backwards.Separable ∧ backwards.render ⟨none, true⟩ = "é x\n```\nzz\n```\nb c\n" := by
  have hseparable : backwards.Separable := by
    have hspans : backwards.editable.filterMap Tree.span = [⟨6, 15⟩, ⟨16, 20⟩, ⟨0, 5⟩] := by
      decide +kernel
    refine ⟨?_, ?_, ?_⟩
    · simp only [hspans, ← Option.isSome_iff_exists]
      decide +kernel
    · simp [hspans]
    · simp [hspans, Apart]
  refine ⟨hseparable, ?_⟩
  rw [(render_eq_weave ⟨none, true⟩ hseparable).1 _ (List.Perm.refl _)]
  decide +kernel

end Document

end LiveDoc
