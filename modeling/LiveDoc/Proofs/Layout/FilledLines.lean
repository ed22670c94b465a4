import LiveDoc.Proofs.Layout.ReadBack
import LiveDoc.Proofs.Layout.Rewritten

/-!
# The lines of a fence that is filled

A fence is written as a line for its opening, one for each piece of the content, and one that closes
it (`flat_filledLines`). What is left behind the old fence stands behind them, maybe as a line of
its own. These lines stand in the text as those of the old fence do
(`Outline.OpensAt.wellFormed_filledLines`).
-/

namespace LiveDoc.Layout

open Markdown (RawLine flat)
open Text (IsEnding dropFinal isUnbroken split_of_not_mem trimStart)

/-! ## The lines that are written -/

/-- The line that closes a fence, and what is left of the lines of the old fence behind it. -/
def closingLines (text ending left : List Char) : (isOpen : Bool) → List RawLine
  | false => [⟨text, left⟩]
  | true => ⟨text, ending⟩ :: if left.isEmpty then [] else [⟨[], left⟩]

/-- The lines of a fence that is filled, with what stands in front of it and what is left behind
it. -/
def filledLines (shape : FenceShape) (front info content ending left : List Char) : List RawLine :=
  ⟨front ++ (writtenMarker shape content ++ info), ending⟩ ::
    ((writtenPieces content).map (fun piece => ⟨writeLine shape.margin piece, ending⟩) ++
      closingLines (shape.margin ++ writtenMarker shape content) ending left shape.isOpen)

theorem flat_closingLines (text ending left : List Char) (isOpen : Bool) :
    flat (closingLines text ending left isOpen) =
      text ++ (if isOpen then ending else []) ++ left := by
  cases isOpen with
  | false => simp [closingLines]
  | true => by_cases hleft : left = [] <;> simp [closingLines, hleft]

/-- The lines of a fence make the text that is written. -/
theorem flat_filledLines (shape : FenceShape) (hindent : shape.indent = [])
    (front info content ending left : List Char) :
    flat (filledLines shape front info content ending left) =
      front ++ writeFence shape info content ending ++ left := by
  have hpieces : ∀ pieces : List (List Char),
      flat (pieces.map fun piece => ⟨writeLine shape.margin piece, ending⟩) =
        pieces.flatMap fun piece => writeLine shape.margin piece ++ ending := fun pieces =>
    List.flatMap_map ..
  rw [filledLines, Markdown.flat_cons, Markdown.flat_append, hpieces, flat_closingLines,
    writeFence_eq, hindent]
  simp

/-- A fence around words is written as one line between two markers. -/
theorem filledLines_words {m : Char} {n : Nat} {margin content : List Char} (hm : m = '`' ∨ m = '~')
    (hn : 1 ≤ n) (hcontent : ∀ c ∈ content, Inert c) (front info ending left : List Char) :
    filledLines ⟨[], m, n, margin, false⟩ front info content ending left =
      fenceLines front (List.replicate n m) info margin content ending left := by
  have hunbroken : ∀ c ∈ content, isUnbroken c := fun c hc => (hcontent c hc).isUnbroken
  have hmem : m ∉ content := fun hmem => (hcontent m hmem).ne_marker hm rfl
  obtain ⟨hfeed, hreturn⟩ := not_mem_of_isUnbroken hunbroken
  have hbody : dropFinal '\n' content = content := dropFinal_of_not_mem hfeed
  have hrun : longestRun m content = 0 := by
    cases hempty : content with
    | nil => rfl
    | cons c more =>
      rw [← hempty, longestRun, lines_unbroken hunbroken (by rw [hempty]; simp), List.foldl_cons,
        List.foldl_nil]
      have hnone : m ∉ trimStart content := fun h => hmem ((List.dropWhile_suffix _).subset h)
      rw [leadingRun_of_not_mem hnone]
      rfl
  have hmarker : writtenMarker ⟨[], m, n, margin, false⟩ content = List.replicate n m := by
    rw [writtenMarker, hbody, hrun, Nat.max_eq_left (by omega)]
  rw [filledLines, fenceLines, hmarker, writtenPieces, hbody, split_of_not_mem hfeed]
  by_cases hempty : content = []
  · simp [hempty, closingLines]
  · have hwrite : writeLine margin content = margin ++ content := by
      rw [writeLine, dropFinal_of_not_mem hreturn]
      simp [hempty]
    simp [hempty, closingLines, hwrite]

end LiveDoc.Layout

namespace LiveDoc.Markdown

open Text (byteLength isUnbroken IsEnding)
open Layout (FenceShape writeLine writtenMarker writtenPieces)

/-! ## Lines with a fence in them -/

/-- Lines that hold the text `old` of a fence behind the text `front`. What is left is at most the
last line end. -/
structure Encloses (lines more : List RawLine) (front old left : List Char) : Prop where
  wellFormed : WellFormed (lines ++ more)
  flat_eq : flat lines = front ++ old ++ left
  ne_nil : old ≠ []
  left_eq : left = [] ∨ lines.getLast?.map RawLine.ending = some left

namespace Encloses

variable {lines more ys : List RawLine} {front old left text ending : List Char}

/-- No lines stand behind a text that does not end with a line end. -/
theorem more_eq_nil (h : Encloses lines more front old left) (hleft : left = [])
    (hfeed : old.getLast? ≠ some '\n') (hreturn : old.getLast? ≠ some '\r') : more = [] := by
  subst hleft
  rcases List.eq_nil_or_concat lines with rfl | ⟨init, last, rfl⟩
  · have hnil := h.flat_eq.symm
    simp [h.ne_nil] at hnil
  · rw [List.concat_eq_append] at h
    -- a line in front of others has a line end, and the text would end with it
    by_contra hmore
    obtain ⟨s, rest, rfl⟩ := List.exists_cons_of_ne_nil hmore
    have hne : last.ending ≠ [] :=
      ((List.isChain_append.mp h.wellFormed.leads).2.2 last (by simp) s rfl).1
    have hlast : last.ending.getLast? = old.getLast? := by
      have hflat := congrArg List.getLast? h.flat_eq
      rwa [flat_append, flat_cons, flat_nil, List.append_nil, List.append_nil, ← List.append_assoc,
        List.getLast?_append_of_ne_nil _ hne, List.getLast?_append_of_ne_nil _ h.ne_nil] at hflat
    rw [← hlast] at hfeed hreturn
    rcases (h.wellFormed.sound last (by simp)).ending with hnil | (hend | hend) | hend
    · exact hne hnil
    · exact hfeed (by rw [hend]; rfl)
    · exact hfeed (by rw [hend]; rfl)
    · exact hreturn (by rw [hend]; rfl)

/-- A text that ends with a line feed in front of a line end stands in front of an empty line. -/
theorem exists_empty (h : Encloses lines more front old left) (hleft : left ≠ [])
    (hfeed : old.getLast? = some '\n') : ∃ init, lines = init ++ [⟨[], left⟩] := by
  obtain ⟨init, last, rfl, htext⟩ := exists_front (h.left_eq.resolve_left hleft) h.flat_eq
  by_cases hlast : last = []
  · exact ⟨init, by rw [hlast]⟩
  · have hget := congrArg List.getLast? htext
    rw [flat_append, flat_cons, flat_nil, List.append_nil, List.append_nil,
      List.getLast?_append_of_ne_nil _ h.ne_nil, List.getLast?_append_of_ne_nil _ hlast,
        hfeed] at hget
    have hmem : '\n' ∈ last := List.mem_of_getLast? hget.symm
    exact absurd rfl ((h.wellFormed.sound ⟨last, left⟩ (by simp)).text '\n' hmem).1

/-- Another line may end as the fence does. -/
theorem wellFormed_last (h : Encloses lines more front old left) (hmore : left = [] → more = [])
    (htext : ∀ c ∈ text, isUnbroken c) (hne : text ≠ []) (hys : WellFormed ys)
    (hhead : (flat ys).head? = (flat more).head?) : WellFormed (⟨text, left⟩ :: ys) := by
  rcases h.left_eq with rfl | hlast
  · rw [hmore rfl, flat_nil, List.head?_nil, List.head?_eq_none_iff] at hhead
    obtain rfl := hys.eq_nil hhead
    exact hys.cons ⟨htext, Or.inl rfl, by simp [RawLine.all, hne]⟩ fun s hs => by cases hs
  · obtain ⟨init, last, rfl, -⟩ := exists_front hlast h.flat_eq
    have hwf := h.wellFormed
    rw [List.append_assoc] at hwf
    have hback : WellFormed (⟨last, left⟩ :: more) := hwf.right
    have hsound := hback.sound ⟨last, left⟩ List.mem_cons_self
    exact hys.cons ⟨htext, hsound.ending, by simp [RawLine.all, hne]⟩
      (leads_of_heads (r := ⟨last, left⟩) rfl hback hys hhead)

/-- The line that closes a fence may stand where the old fence ended. -/
theorem wellFormed_closing (h : Encloses lines more front old left)
    (hreturn : old.getLast? ≠ some '\r' ∨ more = []) (htext : ∀ c ∈ text, isUnbroken c)
    (hne : text ≠ []) (he : IsEnding ending) (hys : WellFormed ys)
    (hhead : (flat ys).head? = (flat more).head?) :
    WellFormed (Layout.closingLines text ending left (Text.endsWith '\n' old) ++ ys) := by
  rw [Text.endsWith_eq]
  by_cases hfeed : old.getLast? = some '\n'
  · rw [decide_eq_true hfeed, Layout.closingLines]
    by_cases hleft : left = []
    · rw [hleft, List.isEmpty_nil, if_pos rfl]
      exact hys.cons_ended htext he
    · obtain ⟨init, rfl⟩ := h.exists_empty hleft hfeed
      have hwf := h.wellFormed
      rw [List.append_assoc] at hwf
      have hback : WellFormed (⟨[], left⟩ :: more) := hwf.right
      rw [if_neg (by simpa using hleft)]
      exact (hback.exchange hys hhead).1.cons_ended htext he
  · rw [decide_eq_false hfeed]
    exact h.wellFormed_last (fun hleft => hreturn.elim (h.more_eq_nil hleft hfeed) id) htext hne hys
      hhead

end Encloses

namespace Outline

variable {o : Outline} {p : Nat} {op : FenceOpening} {ending : List Char}

/-- The lines of a fence that is edited hold its text. -/
theorem EditedFence.encloses {e : Selection} {first : RawLine} {inner more : List RawLine}
    {stop : Nat} {text : List (List Char)} {front opening tail left : List Char}
    (h : EditedFence e o p op first inner more stop text left)
    (hopens : OpensAt o p op first front opening)
    (hflat : flat (first :: inner) = front ++ (opening ++ tail) ++ left) :
    Encloses (first :: inner) more front (opening ++ tail) left := by
  refine ⟨h.wellFormed, hflat, by simp [hopens.opening_ne_nil], ?_⟩
  rw [List.getLast?_cons, Option.map_some, ← List.getLastD_eq_getLast?, Option.some.injEq]
  exact h.rest.left_eq.symm.imp_right Eq.symm

/-- The lines of a fence that is filled stand in the text as those of the old one do. -/
theorem OpensAt.wellFormed_filledLines {shape : FenceShape} {first : RawLine}
    {inner more ys : List RawLine} {front opening old left info content : List Char}
    (h : o.OpensAt p op first front opening)
    (hencloses : Encloses (first :: inner) more front old left) (hmarker : shape.marker = op.marker)
    (hisOpen : shape.isOpen = Text.endsWith '\n' old) (hmargin : ∀ c ∈ shape.margin, isUnbroken c)
    (hreturn : old.getLast? ≠ some '\r' ∨ more = []) (hinfo : ∀ c ∈ info, isUnbroken c)
    (hcontent : '\r' ∉ content) (he : IsEnding ending) (hys : WellFormed ys)
    (hhead : (flat ys).head? = (flat more).head?) :
    WellFormed (Layout.filledLines shape front info content ending left ++ ys) ∧
      (flat (Layout.filledLines shape front info content ending left ++ ys)).head? =
        (flat (first :: (inner ++ more))).head? := by
  have hfirst := (hencloses.wellFormed.sound first (by simp)).text
  rw [h.firstText] at hfirst
  have hrun : ∀ c ∈ writtenMarker shape content, isUnbroken c := by
    intro c hc
    rw [Layout.mem_writtenMarker hc, hmarker]
    rcases h.marker with hm | hm <;> rw [hm] <;> exact ⟨by decide, by decide⟩
  obtain ⟨d, others, hcons⟩ :=
    List.exists_cons_of_ne_nil (Layout.writtenMarker_ne_nil shape content)
  have hd : d = op.marker := (Layout.mem_writtenMarker (hcons ▸ List.mem_cons_self)).trans hmarker
  have hclosing :
    WellFormed (Layout.closingLines (shape.margin ++ writtenMarker shape content) ending left
      (Text.endsWith '\n' old) ++ ys) :=
    hencloses.wellFormed_closing hreturn (List.forall_mem_append.mpr ⟨hmargin, hrun⟩)
      (by simp [hcons]) he hys hhead
  have hpieces :
    ∀ r ∈ (writtenPieces content).map fun piece => RawLine.mk (writeLine shape.margin piece) ending,
      (∀ c ∈ r.text, isUnbroken c) ∧ IsEnding r.ending := by
    intro r hr
    obtain ⟨piece, hpiece, rfl⟩ := List.mem_map.mp hr
    obtain ⟨-, hfeed, hreturn⟩ := Layout.mem_writtenPieces hcontent hpiece
    refine ⟨fun c hc => ?_, he⟩
    rw [writeLine, Layout.dropFinal_of_not_mem hreturn] at hc
    split at hc
    · exact hmargin c ((Layout.trimEnd_isPrefix shape.margin).subset hc)
    · rcases List.mem_append.mp hc with hc | hc
      · exact hmargin c hc
      · exact ⟨fun heq => hfeed (heq ▸ hc), fun heq => hreturn (heq ▸ hc)⟩
  have hopening : ∀ c ∈ front ++ (writtenMarker shape content ++ info), isUnbroken c :=
    List.forall_mem_append.mpr ⟨fun c hc => hfirst c (List.mem_append_left _ hc),
      List.forall_mem_append.mpr ⟨hrun, hinfo⟩⟩
  refine ⟨?_, ?_⟩
  · rw [Layout.filledLines, List.cons_append, List.append_assoc, hisOpen]
    exact (hclosing.append_ended hpieces).cons_ended hopening he
  · obtain ⟨rest, hrest⟩ := List.head?_eq_some_iff.mp h.starts
    rw [Layout.filledLines, List.cons_append, flat_cons, flat_cons, h.firstText, hrest, hcons, hd]
    cases front <;> rfl

end Outline

end LiveDoc.Markdown
