import LiveDoc.Proofs.Layout.Breakout
import LiveDoc.Proofs.Markdown.RawLine
import LiveDoc.Text.Letter

/-!
# The shape of a closed fence

A fence that a line closes is written with the marker of its first line, and with what stands before
the marker of its last line in front of all lines but the first (`FenceShape.ofText_eq`).
-/

namespace LiveDoc.Layout

open Text (split lines dropFinal isBlank trimStart trimEnd IsEnding isUnbroken split_piece
  split_of_not_mem)
open Markdown (RawLine flat)

variable {m : Char} {text rest ending opening margin run : List Char}

/-! ## Lines -/

theorem dropFinal_of_getLast? {c : Char} (h : text.getLast? ≠ some c) :
    dropFinal c text = text := by
  induction text with
  | nil => rfl
  | cons d more ih =>
    cases more with
    | nil =>
      have hne : d ≠ c := by rintro rfl; exact h rfl
      rw [dropFinal, if_neg hne]
    | cons e more => rw [dropFinal, ih (by rwa [List.getLast?_cons_cons] at h)]

theorem dropFinal_of_not_mem {c : Char} (h : c ∉ text) : dropFinal c text = text :=
  dropFinal_of_getLast? fun hlast => h (List.mem_of_getLast? hlast)

theorem dropFinal_concat (c : Char) (text : List Char) : dropFinal c (text ++ [c]) = text := by
  induction text with
  | nil => rw [List.nil_append, dropFinal, if_pos rfl]
  | cons d more ih =>
    cases more with
    | nil => rw [List.singleton_append, dropFinal, dropFinal, if_pos rfl]
    | cons e more => rw [List.cons_append, List.cons_append, dropFinal, ← List.cons_append, ih]

theorem not_mem_of_isUnbroken (h : ∀ c ∈ text, isUnbroken c) : '\n' ∉ text ∧ '\r' ∉ text :=
  ⟨fun hmem => (h _ hmem).1 rfl, fun hmem => (h _ hmem).2 rfl⟩

theorem endedLines_cons (line : List Char) {pieces : List (List Char)} (h : pieces ≠ []) :
    Text.endedLines (line :: pieces) = dropFinal '\r' line :: Text.endedLines pieces := by
  cases pieces with
  | nil => exact absurd rfl h
  | cons next pieces => rfl

/-- A line with a line end is the first line. A carriage return of its own would go with the line
end. -/
theorem lines_append_ending (hfeed : '\n' ∉ text) (hreturn : text.getLast? ≠ some '\r')
    (he : IsEnding ending) (rest : List Char) :
    lines (text ++ ending ++ rest) = text :: lines rest := by
  have hne := Text.split_ne_nil '\n' rest
  rcases he with rfl | rfl
  · rw [lines, List.append_assoc, List.singleton_append, split_piece hfeed, endedLines_cons _ hne,
      dropFinal_of_getLast? hreturn, lines]
  · have hpiece : '\n' ∉ text ++ ['\r'] := by simpa using hfeed
    have htext : text ++ ['\r', '\n'] ++ rest = (text ++ ['\r']) ++ '\n' :: rest := by simp
    rw [lines, htext, split_piece hpiece, endedLines_cons _ hne, dropFinal_concat, lines]

theorem lines_append (h : ∀ c ∈ text, isUnbroken c) (he : IsEnding ending) (rest : List Char) :
    lines (text ++ ending ++ rest) = text :: lines rest :=
  lines_append_ending (not_mem_of_isUnbroken h).1
    (fun hlast => (not_mem_of_isUnbroken h).2 (List.mem_of_getLast? hlast)) he rest

theorem lines_of_not_mem (hfeed : '\n' ∉ text) (hne : text ≠ []) : lines text = [text] := by
  rw [lines, split_of_not_mem hfeed, Text.endedLines, if_neg (by simpa using hne)]

theorem lines_unbroken (h : ∀ c ∈ text, isUnbroken c) (hne : text ≠ []) : lines text = [text] :=
  lines_of_not_mem (not_mem_of_isUnbroken h).1 hne

/-- The lines of lines. -/
theorem lines_flat {rs : List RawLine} (hsound : ∀ r ∈ rs, ∀ c ∈ r.text, isUnbroken c)
    (hending : ∀ r ∈ rs, IsEnding r.ending) (rest : List Char) :
    lines (flat rs ++ rest) = rs.map RawLine.text ++ lines rest := by
  induction rs with
  | nil => rfl
  | cons r more ih =>
    rw [Markdown.flat_cons, List.append_assoc, lines_append (hsound r List.mem_cons_self)
      (hending r List.mem_cons_self), ih (fun s hs => hsound s (List.mem_cons_of_mem r hs))
      (fun s hs => hending s (List.mem_cons_of_mem r hs))]
    rfl

/-! ## The old fence -/

theorem endsWith_of_getLast? {c : Char} {s : List Char} (h : s.getLast? ≠ some c) :
    Text.endsWith c s = false := by
  rw [Text.endsWith_eq, decide_eq_false h]

/-- The text of a fence from its marker to the marker of its closing line. -/
structure Closed (m : Char) (opening margin run : List Char) : Prop where
  marker : m = '`' ∨ m = '~'
  starts : opening.head? = some m
  before : m ∉ margin
  closes : run.head? = some m
  length : leadingRun m opening ≤ leadingRun m run
  behind : (run.dropWhile (· = m)).all isGap = true

namespace Closed

theorem isBlank_marker (h : Closed m opening margin run) : isBlank m = false := by
  rcases h.marker with rfl | rfl <;> decide

theorem trimEnd_run (h : Closed m opening margin run) : (trimEnd run).all (· = m) = true := by
  have hsplit := List.takeWhile_append_dropWhile (p := (· = m)) (l := run)
  have hgap : ∀ c ∈ (run.dropWhile (· = m)).reverse, isBlank c = true := fun c hc =>
    isBlank_of_isGap c (List.all_eq_true.mp h.behind c (List.mem_reverse.mp hc))
  rw [List.all_eq_true]
  intro c hc
  rw [trimEnd, Text.dropEndWhile, List.mem_reverse, ← hsplit, List.reverse_append,
    List.dropWhile_append_of_pos hgap] at hc
  have hmem := List.mem_reverse.mp ((List.dropWhile_suffix _).subset hc)
  exact List.all_eq_true.mp List.all_takeWhile c hmem

theorem closingPrefix? (h : Closed m opening margin run) :
    closingPrefix? m (leadingRun m opening) (margin ++ run) = some margin := by
  have hmargin : ∀ c ∈ margin, (decide (c ≠ m)) = true := fun c hc => by
    simpa using fun heq : c = m => h.before (heq ▸ hc)
  obtain ⟨more, hrun⟩ := List.head?_eq_some_iff.mp h.closes
  have hdrop : run.dropWhile (· ≠ m) = run := by
    rw [hrun]; exact List.dropWhile_cons_of_neg (by simp)
  have htake : run.takeWhile (· ≠ m) = [] := by
    rw [hrun]; exact List.takeWhile_cons_of_neg (by simp)
  have hne : run.isEmpty = false := by rw [hrun]; rfl
  unfold Layout.closingPrefix?
  rw [List.dropWhile_append_of_pos hmargin, hdrop, List.takeWhile_append_of_pos hmargin, htake,
    List.append_nil]
  simp [hne, h.length, h.trimEnd_run]

theorem trimStart_opening (h : Closed m opening margin run) :
    opening.takeWhile isBlank = [] ∧ trimStart opening = opening := by
  obtain ⟨more, hopening⟩ := List.head?_eq_some_iff.mp h.starts
  have hblank : ¬ isBlank m = true := by simp [h.isBlank_marker]
  rw [hopening]
  exact ⟨List.takeWhile_cons_of_neg hblank, List.dropWhile_cons_of_neg hblank⟩

end Closed

/-- **The shape of a closed fence.** It has no indentation of its own, and its margin is what stands
in front of the marker on the closing line. -/
theorem FenceShape.ofText_eq (h : Closed m opening margin run) {ending : List Char}
    {inner : List RawLine} (hopening : ∀ c ∈ opening, isUnbroken c) (he : IsEnding ending)
    (hinner : ∀ r ∈ inner, (∀ c ∈ r.text, isUnbroken c) ∧ IsEnding r.ending)
    (hlast : ∀ c ∈ margin ++ run, isUnbroken c) (body : List Char) :
    FenceShape.ofText (opening ++ ending ++ (flat inner ++ (margin ++ run))) body =
      ⟨[], m, leadingRun m opening, margin, false⟩ := by
  have hne : margin ++ run ≠ [] := by
    intro hnil
    have hrun := h.closes
    rw [(List.append_eq_nil_iff.mp hnil).2] at hrun
    cases hrun
  have hlines : lines (opening ++ ending ++ (flat inner ++ (margin ++ run))) =
      opening :: (inner.map RawLine.text ++ [margin ++ run]) := by
    rw [lines_append hopening he,
      lines_flat (fun r hr => (hinner r hr).1) (fun r hr => (hinner r hr).2),
      lines_unbroken hlast hne]
  have hend :
      Text.endsWith '\n' (opening ++ ending ++ (flat inner ++ (margin ++ run))) = false := by
    refine endsWith_of_getLast? fun hget => ?_
    rw [← List.append_assoc, List.getLast?_append_of_ne_nil _ hne] at hget
    exact (hlast _ (List.mem_of_getLast? hget)).1 rfl
  obtain ⟨hindent, htrim⟩ := h.trimStart_opening
  unfold ofText
  dsimp only
  rw [hlines, hend]
  simp [hindent, htrim, h.starts, h.closingPrefix?]

/-! ## The new fence -/

/-- A character that no rule for the lines of a fence looks at. -/
def Inert (c : Char) : Prop := c ∉ ['\n', '\r', ' ', '\t', '>', '`', '~']

theorem inert_of_isLetterOrNumber {c : Char} (h : Text.isLetterOrNumber c = true) : Inert c := by
  intro hmem
  have hnone :
      (['\n', '\r', ' ', '\t', '>', '`', '~'].all fun c => !Text.isLetterOrNumber c) = true := by
    decide
  have hc := List.all_eq_true.mp hnone c hmem
  rw [h] at hc
  cases hc

namespace Inert

variable {c : Char}

theorem isUnbroken (h : Inert c) : isUnbroken c :=
  ⟨by rintro rfl; exact h (by decide), by rintro rfl; exact h (by decide)⟩

theorem ne_marker (h : Inert c) (hm : m = '`' ∨ m = '~') : c ≠ m := by
  rintro rfl
  rcases hm with rfl | rfl <;> exact h (by decide)

end Inert

/-- The lines of a fence around one line, with what stands in front of it and behind it. -/
def fenceLines (front marker info margin content ending last : List Char) : List RawLine :=
  ⟨front ++ (marker ++ info), ending⟩ ::
    ((if content.isEmpty then [] else [⟨margin ++ content, ending⟩]) ++ [⟨margin ++ marker, last⟩])

theorem leadingRun_of_not_mem (h : m ∉ text) : leadingRun m text = 0 := by
  cases text with
  | nil => rfl
  | cons c rest =>
    rw [List.mem_cons, not_or] at h
    rw [leadingRun, List.takeWhile_cons_of_neg (by simpa using Ne.symm h.1), List.length_nil]

/-- A fence is written with a marker that is at least as long as it was. -/
theorem le_leadingRun_writeFence (shape : FenceShape) (hindent : shape.indent = [])
    (info content ending : List Char) :
    shape.length ≤ leadingRun shape.marker (writeFence shape info content ending) := by
  rw [writeFence_eq, hindent, List.nil_append]
  simp only [List.append_assoc]
  refine Nat.le_trans ?_ (leadingRun_le_append _ _ _)
  rw [writtenMarker, leadingRun_replicate]
  exact Nat.le_max_left _ _

end LiveDoc.Layout
