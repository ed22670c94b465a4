import LiveDoc.Proofs.Layout.FenceSwap
import LiveDoc.Proofs.Layout.FilledLines

/-!
# Fences that are written anew around words

An edit that writes a closed fence anew, around words and behind what it said (`Restates`), puts
lines in its place that are a fence again and say the same (`Outline.Parts.exists_restated`).
-/

namespace LiveDoc.Markdown

open Text (byteLength byteLength_append isUnbroken IsEnding)
open Layout (Edit FenceShape Inert fenceLines writeFence)

/-! ## A fence and its new text -/

/-- An edit writes a fence anew around words, behind an opening that says the same when it is
read. -/
structure Restates (old : List Char) (c : Code) (e : Edit) (info content ending : List Char) :
    Prop where
  span : e.span = c.span
  writes : e.content = writeFence (.ofText old c.value) info content ending
  unbroken : ∀ d ∈ info, isUnbroken d
  words : ∀ d ∈ content, Inert d
  isEnding : IsEnding ending
  noReturn : ∀ r ∈ rawLines old, r.ending ≠ ['\r']
  tells : ∃ op,
    FenceOpening.read? (glyphsAt 0 0 (List.replicate (FenceShape.ofText old c.value).length
      (FenceShape.ofText old c.value).marker ++ info)) = some op ∧
    op.length = (FenceShape.ofText old c.value).length ∧ op.tells = c.tells

namespace Outline

variable {o after : Outline} {p : Nat} {op : FenceOpening} {first last : RawLine}
  {inner more : List RawLine}
variable {front opening margin run : List Char}

namespace Parts

/-- The text of a fence, from its marker to the end of the marker that closes it. -/
theorem flat_eq (h : Parts o p op first last front opening margin run) (inner : List RawLine) :
    flat (first :: (inner ++ [last])) =
      front ++ (opening ++ first.ending ++ (flat inner ++ (margin ++ run))) ++ last.ending := by
  simp [h.firstText, h.lastText]

theorem run_ne_nil (h : Parts o p op first last front opening margin run) : run ≠ [] := by
  intro hnil
  have hcloses := h.closed.closes
  rw [hnil] at hcloses
  cases hcloses

/-- The lines of the text of a fence. -/
theorem wellFormed_old (h : Parts o p op first last front opening margin run)
    (hwf : WellFormed (first :: (inner ++ last :: more))) :
    WellFormed (⟨opening, first.ending⟩ :: (inner ++ [⟨margin ++ run, []⟩])) := by
  have hcut : WellFormed ((first :: inner) ++ ⟨margin ++ run, last.ending⟩ :: more) := by
    rw [← h.lastText]
    exact hwf
  have hset := hcut.cut (by simp [h.run_ne_nil])
  rw [List.cons_append] at hset
  have hfirst : first = ⟨front ++ opening, first.ending⟩ := by rw [← h.firstText]
  rw [hfirst] at hset
  exact hset.drop_front h.opening_ne_nil

/-- The shape of a fence whose lines do not end with a carriage return alone. -/
theorem ofText_eq (h : Parts o p op first last front opening margin run)
    (hwf : WellFormed (first :: (inner ++ last :: more)))
    (hreturn : ∀ r ∈ rawLines (opening ++ first.ending ++ (flat inner ++ (margin ++ run))),
      r.ending ≠ ['\r']) (body : List Char) :
    FenceShape.ofText (opening ++ first.ending ++ (flat inner ++ (margin ++ run))) body =
      ⟨[], op.marker, op.length, margin, false⟩ := by
  have hold := h.wellFormed_old hwf
  have hflat : flat (⟨opening, first.ending⟩ :: (inner ++ [⟨margin ++ run, []⟩])) =
      opening ++ first.ending ++ (flat inner ++ (margin ++ run)) := by simp
  rw [← hflat, rawLines_flat hold] at hreturn
  -- a line that stands in front of another one has a line end
  have hending : ∀ r ∈ RawLine.mk opening first.ending :: inner, IsEnding r.ending := by
    intro r hr
    have hlines : RawLine.mk opening first.ending :: (inner ++ [⟨margin ++ run, []⟩]) =
        (⟨opening, first.ending⟩ :: inner) ++ [⟨margin ++ run, []⟩] := rfl
    have hne : r.ending ≠ [] := by
      obtain ⟨before, behind, hsplit⟩ := List.mem_iff_append.mp hr
      have hleads := hold.leads
      rw [hlines, hsplit, List.append_assoc, List.cons_append] at hleads
      have hback := (List.isChain_append.mp hleads).2.1
      cases behind with
      | nil => exact (List.isChain_cons_cons.mp hback).1.1
      | cons s behind => exact (List.isChain_cons_cons.mp hback).1.1
    have hmem : r ∈ RawLine.mk opening first.ending :: (inner ++ [⟨margin ++ run, []⟩]) := by
      rw [hlines]
      exact List.mem_append_left _ hr
    rcases (hold.sound r hmem).ending with hnil | hend | hcr
    · exact absurd hnil hne
    · exact hend
    · exact absurd hcr (hreturn r hmem)
  have htext : ∀ r ∈ RawLine.mk opening first.ending :: (inner ++ [⟨margin ++ run, []⟩]),
      ∀ c ∈ r.text, isUnbroken c := fun r hr => (hold.sound r hr).text
  rw [FenceShape.ofText_eq h.closed (htext _ List.mem_cons_self) (hending _ List.mem_cons_self)
    (fun r hr => ⟨htext r (by simp [hr]), hending r (List.mem_cons_of_mem _ hr)⟩)
    (htext ⟨margin ++ run, []⟩ (by simp)), ← h.length]

/-- **A fence that is written anew around words** is one again. What is read before comes to its end
in the same way, its code says what the old one said, and the same is open behind it. -/
theorem exists_restated (h : Parts o p op first last front opening margin run)
    (hencloses : Encloses (first :: (inner ++ [last])) more front
      (opening ++ first.ending ++ (flat inner ++ (margin ++ run))) last.ending)
    {c : Code} {e : Edit} {info content ending : List Char}
    (hrestates : Restates (opening ++ first.ending ++ (flat inner ++ (margin ++ run))) c e info
    content ending) (hsame : c.tells = op.tells) :
    ∃ new op' text, Replaces o p op first (inner ++ [last]) more last.ending front e.content new op'
      e.content text ∧ op'.tells = op.tells := by
  have hmin := h.lengthMin
  have hwf := hencloses.wellFormed
  rw [List.cons_append, List.append_assoc, List.singleton_append] at hwf
  have hshape := h.ofText_eq hwf hrestates.noReturn c.value
  have hwrites := hrestates.writes
  obtain ⟨op₀, hread, hlength, htells⟩ := hrestates.tells
  rw [hshape] at hwrites hread hlength
  have hwords : ∀ d ∈ content, Inert d := hrestates.words
  have hlines :
      Layout.filledLines ⟨[], op.marker, op.length, margin, false⟩ front info content ending
          last.ending =
        fenceLines front (List.replicate op.length op.marker) info margin content ending
          last.ending :=
    Layout.filledLines_words h.closed.marker (Nat.le_trans (by decide) hmin) hwords ..
  have hflat :=
    Layout.flat_filledLines ⟨[], op.marker, op.length, margin, false⟩ rfl front info content ending
    last.ending
  rw [← hwrites] at hflat
  obtain ⟨op', stop, text, htells', hstart, hstop, hrun⟩ :=
    h.exists_swap hread hlength hwords ending
  rw [← hlines] at hstop hrun
  obtain rfl : stop = p + byteLength (front ++ e.content) := by
    rw [hflat, byteLength_append] at hstop
    omega
  refine ⟨_, op', text, ⟨hflat, ?_, hstart, List.prefix_rfl, ?_, ?_⟩,
    htells'.trans (htells.trans hsame)⟩
  · intro ys hys hhead
    -- the old fence ends with its marker, so no line end is written behind the new one
    have hlast := (hencloses.wellFormed.sound last (by simp)).text
    rw [h.lastText] at hlast
    have hisOpen := congrArg FenceShape.isOpen hshape
    refine h.wellFormed_filledLines hencloses rfl hisOpen.symm (fun c hc => ?_)
      (Or.inl ?_) hrestates.unbroken
      (fun hmem => (hwords _ hmem).isUnbroken.2 rfl) hrestates.isEnding hys hhead
    · exact hlast c (List.mem_append_left _ hc)
    · intro hreturn
      rw [List.getLast?_append_of_ne_nil _ (by simp [h.run_ne_nil]),
        List.getLast?_append_of_ne_nil _ (by simp [h.run_ne_nil])] at hreturn
      exact (hlast _ (List.mem_of_getLast? hreturn)).2 rfl
  · rw [hwrites]
    exact Nat.le_trans hmin
      (Layout.le_leadingRun_writeFence ⟨[], op.marker, op.length, margin, false⟩ rfl ..)
  · intro ys
    rw [linesAt_append, codes_append, hrun, ← hstop, List.append_assoc]
    rfl

end Parts

end Outline

end LiveDoc.Markdown
