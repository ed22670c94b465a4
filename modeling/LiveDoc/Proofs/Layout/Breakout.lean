import LiveDoc.Layout.Fence
import LiveDoc.Proofs.Text.Breaks
import LiveDoc.Proofs.Text.Pieces

/-!
# What closes a written fence

A fence outside of containers is written with a marker that is longer than the marker at the start
of any line of its body. Bodies are measured by the lines between line feeds, but they are read with
carriage returns as line ends as well:

* **line feeds are safe** — a line that starts behind a line feed never closes the fence
  (`leadingRun_le_longestRun`, `not_closes_first`);
* **carriage returns are not** — a line that starts behind a carriage return on its own is written
  as it stands, and the fence is closed early exactly when one of these lines closes it
  (`inner_open_iff`).
-/

namespace LiveDoc.Layout

open Text (breakLines split lines dropFinal isBlank trimStart IsEnding isUnbroken of_mem_split
  not_mem_of_mem_split)

/-- Whether a character is a blank inside a line of Markdown. -/
def isGap (c : Char) : Bool := c = ' ' || c = '\t'

/-- Whether a line can close a fence that was opened with `length` markers: blanks, a run that is at
least as long, and blanks. -/
def closesFence (marker : Char) (length : Nat) (line : List Char) : Bool :=
  let run := line.dropWhile isGap
  length ≤ leadingRun marker run && (run.dropWhile (· = marker)).all isGap

/-- The lines strictly between the first and the last line of a text. -/
def innerLines (text : List Char) : List (List Char) := (breakLines text).tail.dropLast

/-- The lines of a content that start behind a carriage return on its own. -/
def behindReturns (content : List Char) : List (List Char) :=
  (split '\n' content).flatMap fun piece => (split '\r' (dropFinal '\r' piece)).tail

/-- The marker that a fence is written with. -/
def writtenMarker (shape : FenceShape) (content : List Char) : List Char :=
  List.replicate (max shape.length (longestRun shape.marker (dropFinal '\n' content) + 1))
    shape.marker

/-- The pieces of a content that are written as lines. -/
def writtenPieces (content : List Char) : List (List Char) :=
  if content.isEmpty then [] else split '\n' (dropFinal '\n' content)

/-! ## Pieces -/

theorem dropFinal_isPrefix (c : Char) : ∀ s : List Char, dropFinal c s <+: s
  | [] => List.prefix_rfl
  | [d] => by
    rw [dropFinal]
    split
    · exact List.nil_prefix
    · exact List.prefix_rfl
  | d :: e :: rest => by
    rw [dropFinal]
    exact List.cons_prefix_cons.mpr ⟨rfl, dropFinal_isPrefix c (e :: rest)⟩

/-- A separator at the end of a text makes an empty last piece. -/
theorem split_dropFinal (c : Char) : ∀ s : List Char,
    split c s = split c (dropFinal c s) ∨ split c s = split c (dropFinal c s) ++ [[]]
  | [] => Or.inl rfl
  | [d] => by
    by_cases hd : d = c
    · exact Or.inr (by simp [dropFinal, split, hd])
    · exact Or.inl (by simp [dropFinal, hd])
  | d :: e :: rest => by
    have ih := split_dropFinal c (e :: rest)
    rw [dropFinal, split, split.eq_def c (d :: dropFinal c (e :: rest))]
    simp only
    by_cases hd : d = c
    · rw [if_pos hd, if_pos hd]
      rcases ih with ih | ih
      · exact Or.inl (by rw [ih])
      · exact Or.inr (by rw [ih, List.cons_append])
    · rw [if_neg hd, if_neg hd]
      rcases ih with ih | ih
      · exact Or.inl (by rw [ih])
      · right
        rw [ih]
        cases hs : split c (dropFinal c (e :: rest)) with
        | nil => exact absurd hs (Text.split_ne_nil c _)
        | cons piece pieces => simp

/-- The written pieces hold all lines that start behind carriage returns. -/
theorem behindReturns_eq (content : List Char) :
    behindReturns content =
      (writtenPieces content).flatMap fun piece => (split '\r' (dropFinal '\r' piece)).tail := by
  unfold behindReturns writtenPieces
  cases content with
  | nil => simp [split, dropFinal]
  | cons c rest =>
    rw [List.isEmpty_cons, if_neg (by simp)]
    rcases split_dropFinal '\n' (c :: rest) with h | h
    · rw [h]
    · rw [h, List.flatMap_append]
      simp [split, dropFinal]

/-- Every piece between line feeds starts one of the lines, if it is not empty. -/
theorem exists_line_of_mem_split {s piece : List Char} (h : piece ∈ split '\n' s) :
    piece = [] ∨ ∃ line ∈ lines s, dropFinal '\r' piece <+: line := by
  unfold lines
  generalize split '\n' s = pieces at h
  induction pieces with
  | nil => exact absurd h (by simp)
  | cons first others ih =>
    cases others with
    | nil =>
      rw [List.mem_singleton] at h
      subst h
      by_cases hnil : piece = []
      · exact Or.inl hnil
      · right
        refine ⟨piece, ?_, dropFinal_isPrefix '\r' piece⟩
        rw [Text.endedLines, if_neg (by simpa using hnil)]
        exact List.mem_singleton.mpr rfl
    | cons second more =>
      rw [Text.endedLines]
      rcases List.mem_cons.mp h with rfl | h
      · exact Or.inr ⟨_, List.mem_cons_self, List.prefix_rfl⟩
      · rcases ih h with hnil | ⟨line, hline, hprefix⟩
        · exact Or.inl hnil
        · exact Or.inr ⟨line, List.mem_cons_of_mem _ hline, hprefix⟩

/-! ## Runs -/

theorem leadingRun_le_of_prefix {s t : List Char} (marker : Char) (h : s <+: t) :
    leadingRun marker s ≤ leadingRun marker t := by
  induction s generalizing t with
  | nil => exact Nat.zero_le _
  | cons c s ih =>
    obtain ⟨more, rfl⟩ := h
    unfold leadingRun at *
    by_cases hc : c = marker
    · have := ih (List.prefix_append s more)
      simp only [List.cons_append, List.takeWhile_cons, hc, decide_true, if_true,
        List.length_cons]
      omega
    · simp [hc]

theorem leadingRun_le_append (m : Char) (s t : List Char) :
    leadingRun m s ≤ leadingRun m (s ++ t) :=
  leadingRun_le_of_prefix m (List.prefix_append s t)

/-- Dropping more blanks from a longer text leaves no shorter run. -/
theorem leadingRun_dropWhile_le {marker : Char} {p q : Char → Bool} {s t : List Char}
    (hpq : ∀ c, p c = true → q c = true) (hmarker : q marker = false) (h : s <+: t) :
    leadingRun marker (s.dropWhile p) ≤ leadingRun marker (t.dropWhile q) := by
  induction s generalizing t with
  | nil => exact Nat.zero_le _
  | cons c s ih =>
    obtain ⟨more, rfl⟩ := h
    rw [List.cons_append]
    by_cases hp : p c = true
    · rw [List.dropWhile_cons_of_pos hp, List.dropWhile_cons_of_pos (hpq c hp)]
      exact ih (List.prefix_append s more)
    · rw [List.dropWhile_cons_of_neg hp]
      by_cases hc : c = marker
      · subst hc
        rw [List.dropWhile_cons_of_neg (by simp [hmarker])]
        exact leadingRun_le_of_prefix c (List.cons_prefix_cons.mpr ⟨rfl, List.prefix_append s more⟩)
      · simp [leadingRun, hc]

theorem leadingRun_append {c : Char} {t : List Char} (n : Nat) (h : t.head? ≠ some c) :
    leadingRun c (List.replicate n c ++ t) = n := by
  have hnone : t.takeWhile (· = c) = [] := by
    cases t with
    | nil => rfl
    | cons d rest => exact List.takeWhile_cons_of_neg (by simpa using fun hd => h (by rw [hd]; rfl))
  rw [leadingRun, List.takeWhile_append_of_pos (by simp), hnone, List.append_nil,
    List.length_replicate]

theorem leadingRun_replicate (m : Char) (n : Nat) : leadingRun m (List.replicate n m) = n := by
  have happend := leadingRun_append (t := []) (c := m) n nofun
  rwa [List.append_nil] at happend

theorem head?_replicate_append {m : Char} {n : Nat} (hn : 1 ≤ n) (t : List Char) :
    (List.replicate n m ++ t).head? = some m := by
  obtain ⟨k, rfl⟩ := Nat.exists_eq_add_of_le' hn
  rw [List.replicate_succ]
  rfl

theorem le_foldl_max {α : Type} (f : α → Nat) (xs : List α) (n : Nat) :
    n ≤ xs.foldl (fun m x => max m (f x)) n ∧
      ∀ x ∈ xs, f x ≤ xs.foldl (fun m x => max m (f x)) n := by
  induction xs generalizing n with
  | nil => simp
  | cons x xs ih =>
    obtain ⟨hn, hxs⟩ := ih (max n (f x))
    rw [List.foldl_cons]
    refine ⟨by omega, ?_⟩
    intro y hy
    rcases List.mem_cons.mp hy with rfl | hy
    · omega
    · exact hxs y hy

/-- The longest run is at least as long as that of any line. -/
theorem leadingRun_le_longestRun {marker : Char} {body line : List Char} (h : line ∈ lines body) :
    leadingRun marker (trimStart line) ≤ longestRun marker body :=
  (le_foldl_max (fun line => leadingRun marker (trimStart line)) (lines body) 0).2 line h

theorem isBlank_of_isGap (c : Char) (h : isGap c = true) : isBlank c = true := by
  unfold isGap at h
  rw [Bool.or_eq_true, decide_eq_true_eq, decide_eq_true_eq] at h
  rcases h with rfl | rfl <;> decide

/-- A line that starts where a piece of the body does is never closing. -/
theorem not_closes_first {marker : Char} {body piece first : List Char} {length : Nat}
    (hmarker : isBlank marker = false) (hlength : longestRun marker body < length)
    (hpiece : piece ∈ split '\n' body) (hfirst : first <+: dropFinal '\r' piece) :
    closesFence marker length first = false := by
  have hrun : leadingRun marker (first.dropWhile isGap) ≤ longestRun marker body := by
    rcases exists_line_of_mem_split hpiece with rfl | ⟨line, hline, hprefix⟩
    · have hnil : first = [] := List.prefix_nil.mp hfirst
      subst hnil
      exact Nat.zero_le _
    · exact Nat.le_trans (leadingRun_dropWhile_le isBlank_of_isGap hmarker (hfirst.trans hprefix))
        (leadingRun_le_longestRun hline)
  unfold closesFence
  rw [Bool.and_eq_false_iff]
  left
  simpa using Nat.lt_of_le_of_lt hrun hlength

/-- An empty line closes no fence. -/
theorem ne_nil_of_closes {marker : Char} {length : Nat} {line : List Char} (hpos : 0 < length)
    (h : closesFence marker length line = true) : line ≠ [] := by
  rintro rfl
  simp [closesFence, leadingRun] at h
  omega

/-! ## The written fence as lines -/

theorem head?_dropWhile_neg {p : Char → Bool} {s : List Char} {c : Char}
    (h : (s.dropWhile p).head? = some c) : p c = false := by
  induction s with
  | nil => simp at h
  | cons d rest ih =>
    by_cases hd : p d = true
    · rw [List.dropWhile_cons_of_pos hd] at h
      exact ih h
    · rw [List.dropWhile_cons_of_neg hd, List.head?_cons, Option.some.injEq] at h
      rw [← h]
      simpa using hd

/-- The marker of a fence is no blank. -/
theorem marker_ofText (old body : List Char) :
    isBlank (FenceShape.ofText old body).marker = false := by
  unfold FenceShape.ofText
  simp only
  generalize (lines old).head?.getD [] = opening
  cases h : (trimStart opening).head? with
  | none => decide
  | some c => exact head?_dropWhile_neg h

theorem isUnbroken_of_not_isBlank {c : Char} (h : isBlank c = false) : isUnbroken c := by
  constructor
  · rintro rfl
    exact absurd h (by decide)
  · rintro rfl
    exact absurd h (by decide)

theorem writeLine_nil (line : List Char) : writeLine [] line = dropFinal '\r' line := by
  unfold writeLine
  simp only [List.nil_append]
  split
  · next h => simpa [Text.trimEnd, Text.dropEndWhile] using (List.isEmpty_iff.mp h).symm
  · rfl

/-- Behind every ended piece the reading of lines starts anew. -/
theorem breakLines_flatMap {ending : List Char} (he : IsEnding ending)
    (pieces : List (List Char)) (rest : List Char) :
    breakLines (pieces.flatMap (fun piece => dropFinal '\r' piece ++ ending) ++ rest) =
      pieces.flatMap (fun piece => breakLines (dropFinal '\r' piece ++ ending)) ++
        breakLines rest := by
  induction pieces with
  | nil => rfl
  | cons piece pieces ih =>
    obtain ⟨before, hbefore⟩ : ∃ before, dropFinal '\r' piece ++ ending = before ++ ['\n'] := by
      rcases he with rfl | rfl
      · exact ⟨_, rfl⟩
      · exact ⟨dropFinal '\r' piece ++ ['\r'], by simp⟩
    rw [List.flatMap_cons, List.flatMap_cons, hbefore, List.append_assoc, List.append_assoc,
      List.append_assoc, List.singleton_append, Text.breakLines_append_ended, ih]

/-- What is written: the opening line, the pieces of the content, and the closing line. -/
theorem writeFence_eq (shape : FenceShape) (info content ending : List Char) :
    writeFence shape info content ending =
      (shape.indent ++ (writtenMarker shape content ++ info)) ++ ending ++
        ((writtenPieces content).flatMap (fun piece => writeLine shape.margin piece ++ ending) ++
          (shape.margin ++ writtenMarker shape content ++
            if shape.isOpen then ending else [])) := by
  simp [writeFence, writtenMarker, writtenPieces]

/-- A fence outside of containers is read as the line that opens it, the lines of its pieces, and
the marker. -/
theorem breakLines_writeFence {shape : FenceShape} {info ending : List Char}
    (hindent : shape.indent = []) (hmargin : shape.margin = [])
    (hmarker : isBlank shape.marker = false) (hinfo : ∀ c ∈ info, isUnbroken c)
    (he : IsEnding ending) (content : List Char) :
    breakLines (writeFence shape info content ending) =
      (writtenMarker shape content ++ info) ::
        (writtenPieces content).flatMap
        (fun piece => breakLines (dropFinal '\r' piece ++ ending)) ++
          [writtenMarker shape content] := by
  have hrun : ∀ c ∈ writtenMarker shape content, isUnbroken c := by
    intro c hc
    rw [writtenMarker, List.mem_replicate] at hc
    rw [hc.2]
    exact isUnbroken_of_not_isBlank hmarker
  have hopening : ∀ c ∈ writtenMarker shape content ++ info, isUnbroken c := by
    intro c hc
    rcases List.mem_append.mp hc with hc | hc
    · exact hrun c hc
    · exact hinfo c hc
  have hne : writtenMarker shape content ≠ [] := by
    rw [writtenMarker, Ne, List.replicate_eq_nil_iff]
    omega
  have hlast : breakLines (writtenMarker shape content ++ if shape.isOpen then ending else []) =
      [writtenMarker shape content] := by
    split
    · have := Text.breakLines_append_ending hrun he []
      rw [List.append_nil] at this
      rw [this, Text.breakLines_nil]
    · rw [List.append_nil, Text.breakLines_unbroken hrun hne]
  have htext : writeFence shape info content ending =
      (writtenMarker shape content ++ info) ++ ending ++
        ((writtenPieces content).flatMap (fun piece => dropFinal '\r' piece ++ ending) ++
          (writtenMarker shape content ++ if shape.isOpen then ending else [])) := by
    simp [writeFence_eq, hindent, hmargin, writeLine_nil]
  rw [htext, Text.breakLines_append_ending hopening he, breakLines_flatMap he, hlast,
    List.cons_append]

/-- The first piece is where the text starts. -/
theorem prefix_of_split {sep : Char} {s first : List Char} {others : List (List Char)}
    (h : split sep s = first :: others) : first <+: s := by
  have hjoin := Text.join_split sep s
  rw [h] at hjoin
  cases others with
  | nil => exact ⟨[], by simpa [Text.join] using hjoin⟩
  | cons second more =>
    exact ⟨sep :: Text.join [sep] (second :: more), by simpa [Text.join] using hjoin⟩

/-- A closing line of a written piece starts behind a carriage return on its own. -/
theorem mem_piece_iff_of_closes {marker : Char} {body piece ending line : List Char} {length : Nat}
    (hmarker : isBlank marker = false) (hlength : longestRun marker body < length)
    (hpiece : piece ∈ split '\n' body) (he : IsEnding ending)
    (hcloses : closesFence marker length line = true) :
    line ∈ breakLines (dropFinal '\r' piece ++ ending) ↔
      line ∈ (split '\r' (dropFinal '\r' piece)).tail := by
  have hlf : '\n' ∉ dropFinal '\r' piece := fun hmem =>
    not_mem_of_mem_split hpiece ((dropFinal_isPrefix '\r' piece).subset hmem)
  obtain ⟨first, behind, returns, hbreak, hsplit, hsame⟩ := Text.breakLines_ended hlf he
  have hne : line ≠ [] := ne_nil_of_closes (by omega) hcloses
  have hfirst : line ≠ first := by
    rintro rfl
    rw [not_closes_first hmarker hlength hpiece (prefix_of_split hsplit)] at hcloses
    exact absurd hcloses (by simp)
  rw [hbreak, hsplit, List.tail_cons, List.mem_cons, ← hsame line hne]
  exact or_iff_right hfirst

/-- The first line of a text. -/
def firstLine (text : List Char) : List Char := (breakLines text).head?.getD []

/-- **Breaking out of a fence.** A fence without indentation and margin opens with its first line,
and its last line is the marker. No line in between closes it exactly when none of the lines closes
it that start behind a carriage return on its own in the content. -/
theorem inner_open_iff {old content ending : List Char} {fence : Fence} {shape : FenceShape}
    (hshape : FenceShape.ofText old fence.parsedBody.toList = shape)
    (hindent : shape.indent = []) (hmargin : shape.margin = [])
    (hinfo : ∀ c ∈ fence.info.toList, isUnbroken c) (he : IsEnding ending) :
    firstLine (renderFence old fence content ending) =
        writtenMarker shape content ++ fence.info.toList ∧
      (breakLines (renderFence old fence content ending)).getLast? =
        some (writtenMarker shape content) ∧
      ((∀ line ∈ innerLines (renderFence old fence content ending),
          closesFence shape.marker
            (leadingRun shape.marker (firstLine (renderFence old fence content ending))) line =
              false) ↔
        ∀ line ∈ behindReturns content,
          closesFence shape.marker
            (leadingRun shape.marker (firstLine (renderFence old fence content ending))) line =
              false) := by
  have hmarker : isBlank shape.marker = false := hshape ▸ marker_ofText old _
  unfold innerLines firstLine renderFence
  rw [hshape, breakLines_writeFence hindent hmargin hmarker hinfo he content, behindReturns_eq,
    List.cons_append, List.head?_cons, Option.getD_some, List.tail_cons, List.dropLast_concat]
  refine ⟨rfl, by rw [← List.cons_append, List.getLast?_concat], ?_⟩
  -- the opening run is longer than the run at the start of any line of the body
  have hlonger : longestRun shape.marker (dropFinal '\n' content) <
      leadingRun shape.marker (writtenMarker shape content ++ fence.info.toList) := by
    have hrun : leadingRun shape.marker (writtenMarker shape content) =
        max shape.length (longestRun shape.marker (dropFinal '\n' content) + 1) := by
      simp [leadingRun, writtenMarker]
    have hle := leadingRun_le_of_prefix shape.marker
      (List.prefix_append (writtenMarker shape content) fence.info.toList)
    omega
  generalize leadingRun shape.marker (writtenMarker shape content ++ fence.info.toList) = length
    at hlonger
  have hpiece : ∀ piece ∈ writtenPieces content, piece ∈ split '\n' (dropFinal '\n' content) := by
    intro piece hmem
    unfold writtenPieces at hmem
    split at hmem
    · exact absurd hmem (by simp)
    · exact hmem
  have hsame : ∀ line, closesFence shape.marker length line = true →
      (line ∈ (writtenPieces content).flatMap
          (fun piece => breakLines (dropFinal '\r' piece ++ ending)) ↔
        line ∈ (writtenPieces content).flatMap
          (fun piece => (split '\r' (dropFinal '\r' piece)).tail)) := by
    intro line hcloses
    simp only [List.mem_flatMap]
    exact exists_congr fun piece => and_congr_right fun hmem =>
      mem_piece_iff_of_closes hmarker hlonger (hpiece piece hmem) he hcloses
  constructor
  · intro hinner line hline
    cases hcloses : closesFence shape.marker length line with
    | false => rfl
    | true => exact hcloses ▸ hinner line ((hsame line hcloses).mpr hline)
  · intro hreturns line hline
    cases hcloses : closesFence shape.marker length line with
    | false => rfl
    | true => exact hcloses ▸ hreturns line ((hsame line hcloses).mp hline)

/-- The shape of a fence of three backticks around one line. -/
def plainShape : FenceShape := ⟨[], '`', 3, [], false⟩

/-- Carriage returns between plain lines leave a fence closed by its last line alone. -/
theorem inner_open_plain :
    FenceShape.ofText "```\nx\n```".toList "x".toList = plainShape ∧
      (∀ line ∈ behindReturns "a\r`b".toList, closesFence '`' 3 line = false) ∧
      ∀ line ∈ innerLines (renderFence "```\nx\n```".toList (.ofParsed none "" "x")
        "a\r`b".toList ['\n']), closesFence '`' 3 line = false := by
  have hshape : FenceShape.ofText "```\nx\n```".toList "x".toList = plainShape := by decide +kernel
  have hreturns : ∀ line ∈ behindReturns "a\r`b".toList, closesFence '`' 3 line = false := by
    decide +kernel
  have hspec := @inner_open_iff _ "a\r`b".toList ['\n'] (.ofParsed none "" "x") _ hshape
    rfl rfl (by simp [Fence.ofParsed]) (Or.inl rfl)
  have hlength : leadingRun '`' (firstLine (renderFence "```\nx\n```".toList
      (.ofParsed none "" "x") "a\r`b".toList ['\n'])) = 3 := by decide +kernel
  refine ⟨hshape, hreturns, ?_⟩
  have hiff := hspec.2.2
  simp only [plainShape, hlength] at hiff
  exact hiff.mpr hreturns

/-- A fence whose content holds a marker behind a carriage return is closed there: the marker is not
made longer. -/
theorem closed_behind_return :
    ¬ ∀ (old content ending : List Char) (fence : Fence) (shape : FenceShape),
      FenceShape.ofText old fence.parsedBody.toList = shape → shape.indent = [] →
      shape.margin = [] → fence.isModified (String.ofList content) = true →
      (∀ c ∈ fence.info.toList, isUnbroken c) → IsEnding ending →
      ∀ line ∈ innerLines (renderFence old fence content ending),
        closesFence shape.marker
          (leadingRun shape.marker (firstLine (renderFence old fence content ending))) line =
            false := by
  intro h
  have hline := h "```\nx\n```".toList "a\r```\nb".toList ['\n'] (.ofParsed none "" "x") plainShape
    (by decide +kernel) rfl rfl (by decide +kernel) (by simp [Fence.ofParsed]) (Or.inl rfl)
      ['`', '`', '`']
    (by decide +kernel)
  revert hline
  decide +kernel

end LiveDoc.Layout
