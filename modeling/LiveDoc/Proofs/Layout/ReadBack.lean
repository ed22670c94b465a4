import Mathlib.Data.List.DropRight
import LiveDoc.Proofs.Layout.FenceShape

/-!
# Reading a written fence back

A fence is read line by line, where lines end with line feeds. The first line has the indentation, a
run of markers and the info. The lines behind it lose the margin, up to the first one that closes.

* `readFence?` — the reader, which knows the indentation, the margin and the marker;
* **lines** — what is written is the first line, a line for each piece of the content, and the
  closing line (`lines_writeFence`);
* **step** — a written piece does not close the fence and is read as the piece
  (`not_closes_writeLine`, `bodyLine?_writeLine`);
* `renderFence_readBack` — a fence that is written for a content without carriage returns is read
  back.
-/

namespace LiveDoc.Layout

open Text (split lines join dropFinal isBlank trimStart trimEnd IsEnding isUnbroken of_mem_split
  not_mem_of_mem_split)

variable {m : Char} {indent margin info content ending old line piece : List Char} {length : Nat}

/-! ## The reader -/

/-- What is behind a text that a line starts with. -/
def behind? (front line : List Char) : Option (List Char) :=
  if front.isPrefixOf line then some (line.drop front.length) else none

/-- Whether a line closes a fence: behind the margin it has blanks, a run that is long enough, and
blanks. -/
def closesBehind (margin : List Char) (marker : Char) (length : Nat) (line : List Char) : Bool :=
  match behind? margin line with
  | none => false
  | some text =>
    length ≤ leadingRun marker (trimStart text) &&
      ((trimStart text).dropWhile (· = marker)).all isBlank

/-- The text of a line behind the margin. An empty line may have lost the blanks at the margin's
end. -/
def bodyLine? (margin line : List Char) : Option (List Char) :=
  (behind? margin line).or (if line = trimEnd margin then some [] else none)

/-- The texts of lines up to the first one that closes, and the lines behind that one. -/
def readBody? (margin : List Char) (marker : Char) (length : Nat) :
    List (List Char) → Option (List (List Char) × List (List Char))
  | [] => none
  | line :: rest =>
    if closesBehind margin marker length line then some ([], rest)
    else
      match bodyLine? margin line, readBody? margin marker length rest with
      | some text, some (body, behind) => some (text :: body, behind)
      | _, _ => none

/-- A fence that was read. -/
structure FenceReading where
  /-- The length of the opening run. -/
  length : Nat
  info : List Char
  body : List (List Char)
  /-- The lines behind the closing line. -/
  behind : List (List Char)

/-- Reads a fence. -/
def readFence? (indent margin : List Char) (marker : Char) (text : List Char) :
    Option FenceReading :=
  match lines text with
  | [] => none
  | first :: rest =>
    match behind? indent first with
    | none => none
    | some opening =>
      let length := leadingRun marker opening
      (readBody? margin marker length rest).map fun (body, behind) =>
        ⟨length, opening.drop length, body, behind⟩

/-! ## The shape of the old fence -/

theorem not_mem_of_mem_lines {s : List Char} (h : line ∈ lines s) : '\n' ∉ line := by
  have hpieces : ∀ piece ∈ split '\n' s, '\n' ∉ piece := fun _ => not_mem_of_mem_split
  rw [lines] at h
  generalize split '\n' s = pieces at h hpieces
  induction pieces with
  | nil => cases h
  | cons first others ih =>
    obtain ⟨hfirst, hothers⟩ := List.forall_mem_cons.mp hpieces
    cases others with
    | nil =>
      rw [Text.endedLines] at h
      split at h
      · cases h
      · rw [List.mem_singleton.mp h]
        exact hfirst
    | cons second others =>
      rw [Text.endedLines] at h
      rcases List.mem_cons.mp h with rfl | h
      · exact fun hmem => hfirst ((dropFinal_isPrefix '\r' first).subset hmem)
      · exact ih h hothers

theorem isPrefix_of_closingPrefix? {before : List Char}
    (h : closingPrefix? m length line = some before) :
    before <+: line := by
  unfold closingPrefix? at h
  dsimp only at h
  split at h
  · cases h
    exact List.takeWhile_prefix _
  · cases h

theorem isPrefix_of_bodyPrefix? {before : List Char} : ∀ {ls texts : List (List Char)},
    bodyPrefix? ls texts = some before → ∃ line ∈ ls, before <+: line
  | line :: ls, text :: texts, h => by
    rw [bodyPrefix?] at h
    split at h
    · next hfound =>
      cases h
      split at hfound
      · cases hfound
      · unfold dropSuffix? at hfound
        split at hfound
        · cases hfound
          exact ⟨line, List.mem_cons_self, List.take_prefix ..⟩
        · cases hfound
    · obtain ⟨other, hother, hprefix⟩ := isPrefix_of_bodyPrefix? h
      exact ⟨other, List.mem_cons_of_mem line hother, hprefix⟩
  | [], _, h => by cases h
  | _ :: _, [], h => by cases h

/-- The indentation and the margin are inside lines of the old fence. -/
theorem not_mem_ofText (old body : List Char) :
    '\n' ∉ (FenceShape.ofText old body).indent ∧ '\n' ∉ (FenceShape.ofText old body).margin := by
  have hline : ∀ {line before}, line ∈ lines old → before <+: line → '\n' ∉ before :=
    fun hmem hfront hfeed => not_mem_of_mem_lines hmem (hfront.subset hfeed)
  have hindent : '\n' ∉ ((lines old).head?.getD []).takeWhile isBlank := by
    cases hhead : (lines old).head? with
    | none => simp
    | some first => exact hline (List.mem_of_mem_head? hhead) (List.takeWhile_prefix _)
  refine ⟨hindent, ?_⟩
  unfold FenceShape.ofText
  dsimp only
  generalize leadingRun _ _ = length
  generalize (trimStart _).head?.getD '`' = marker
  cases hclosing : ((lines old).drop 1).getLast?.bind (closingPrefix? marker length) with
  | some before =>
    obtain ⟨last, hlast, hbefore⟩ := Option.bind_eq_some_iff.mp hclosing
    exact hline (List.mem_of_mem_drop (List.mem_of_getLast? hlast))
      (isPrefix_of_closingPrefix? hbefore)
  | none =>
    rw [Option.none_or]
    cases hbody : bodyPrefix? ((lines old).drop 1) (lines body) with
    | some before =>
      obtain ⟨other, hmem, hprefix⟩ := isPrefix_of_bodyPrefix? hbody
      exact hline (List.mem_of_mem_drop hmem) hprefix
    | none => exact hindent

/-! ## The lines that are written -/

theorem trimEnd_isPrefix (s : List Char) : trimEnd s <+: s := List.rdropWhile_prefix isBlank s

theorem getLast?_trimEnd {c : Char} {s : List Char} (h : (trimEnd s).getLast? = some c) :
    isBlank c = false := by
  have hne : trimEnd s ≠ [] := by rintro hnil; rw [hnil] at h; cases h
  rw [List.getLast?_eq_some_getLast hne, Option.some.injEq] at h
  have hlast := List.rdropWhile_last_not isBlank s hne
  rw [← h]
  exact Bool.eq_false_iff.mpr hlast

/-- A written line has no line ends. -/
theorem writeLine_sound (hmargin : '\n' ∉ margin) (hfeed : '\n' ∉ piece) (hreturn : '\r' ∉ piece) :
    '\n' ∉ writeLine margin piece ∧ (writeLine margin piece).getLast? ≠ some '\r' := by
  rw [writeLine, dropFinal_of_not_mem hreturn]
  split
  · refine ⟨fun hmem => hmargin ((trimEnd_isPrefix margin).subset hmem), fun hlast => ?_⟩
    exact absurd (getLast?_trimEnd hlast) (by decide)
  · next hne =>
    refine ⟨fun hmem => (List.mem_append.mp hmem).elim hmargin hfeed, fun hlast => ?_⟩
    rw [List.getLast?_append_of_ne_nil _ (by simpa using hne)] at hlast
    exact hreturn (List.mem_of_getLast? hlast)

theorem lines_pieces (hmargin : '\n' ∉ margin) (he : IsEnding ending) {pieces : List (List Char)}
    (hpieces : ∀ piece ∈ pieces, '\n' ∉ piece ∧ '\r' ∉ piece) (rest : List Char) :
    lines (pieces.flatMap (fun piece => writeLine margin piece ++ ending) ++ rest) =
      pieces.map (writeLine margin) ++ lines rest := by
  induction pieces with
  | nil => rfl
  | cons piece pieces ih =>
    obtain ⟨⟨hfeed, hreturn⟩, hothers⟩ := List.forall_mem_cons.mp hpieces
    obtain ⟨hline, hlast⟩ := writeLine_sound hmargin hfeed hreturn
    rw [List.flatMap_cons, List.append_assoc, lines_append_ending hline hlast he, ih hothers]
    rfl

theorem mem_writtenPieces (hcontent : '\r' ∉ content) (h : piece ∈ writtenPieces content) :
    piece ∈ split '\n' (dropFinal '\n' content) ∧ '\n' ∉ piece ∧ '\r' ∉ piece := by
  unfold writtenPieces at h
  split at h
  · cases h
  · exact ⟨h, not_mem_of_mem_split h, fun hmem =>
      hcontent ((dropFinal_isPrefix '\n' content).subset (of_mem_split h hmem).1)⟩

theorem mem_writtenMarker {shape : FenceShape} {c : Char} (h : c ∈ writtenMarker shape content) :
    c = shape.marker := List.eq_of_mem_replicate h

theorem writtenMarker_ne_nil (shape : FenceShape) (content : List Char) :
    writtenMarker shape content ≠ [] := by
  rw [writtenMarker, Ne, List.replicate_eq_nil_iff]
  omega

/-- Behind the marker there is no line end. -/
theorem getLast?_append_writtenMarker {shape : FenceShape} (hmarker : isUnbroken shape.marker)
    (hinfo : ∀ c ∈ info, isUnbroken c) (content front : List Char) :
    ∃ c, (front ++ (writtenMarker shape content ++ info)).getLast? = some c ∧ isUnbroken c := by
  have hne : writtenMarker shape content ++ info ≠ [] := by simp [writtenMarker_ne_nil]
  refine ⟨_, (List.getLast?_append_of_ne_nil front hne).trans (List.getLast?_eq_some_getLast hne),
    ?_⟩
  rcases List.mem_append.mp (List.getLast_mem hne) with hmem | hmem
  · exact mem_writtenMarker hmem ▸ hmarker
  · exact hinfo _ hmem

/-- **The lines of a written fence.** -/
theorem lines_writeFence {shape : FenceShape} (hindent : '\n' ∉ shape.indent)
    (hmargin : '\n' ∉ shape.margin) (hmarker : isUnbroken shape.marker)
    (hinfo : ∀ c ∈ info, isUnbroken c) (hcontent : '\r' ∉ content) (he : IsEnding ending) :
    lines (writeFence shape info content ending) =
      (shape.indent ++ (writtenMarker shape content ++ info)) ::
        ((writtenPieces content).map (writeLine shape.margin) ++
          [shape.margin ++ writtenMarker shape content]) := by
  have hrun : '\n' ∉ writtenMarker shape content :=
    fun hmem => hmarker.1 (mem_writtenMarker hmem).symm
  obtain ⟨c, hc, hopening⟩ :=
    getLast?_append_writtenMarker hmarker hinfo content shape.indent
  obtain ⟨d, hd, hclosing⟩ :=
    getLast?_append_writtenMarker hmarker (List.forall_mem_nil _) content shape.margin
  rw [List.append_nil] at hd
  have hfirst : '\n' ∉ shape.indent ++ (writtenMarker shape content ++ info) := by
    simp [hindent, hrun, (not_mem_of_isUnbroken hinfo).1]
  have hlast : '\n' ∉ shape.margin ++ writtenMarker shape content := by simp [hmargin, hrun]
  have hne : shape.margin ++ writtenMarker shape content ≠ [] := by simp [writtenMarker_ne_nil]
  have hend :
    lines (shape.margin ++ writtenMarker shape content ++ if shape.isOpen then ending else []) =
      [shape.margin ++ writtenMarker shape content] := by
    split
    · have hlines := lines_append_ending hlast (by simpa [hd] using hclosing.2) he []
      rwa [List.append_nil] at hlines
    · rw [List.append_nil, lines_of_not_mem hlast hne]
  rw [writeFence_eq, lines_append_ending hfirst (by simpa [hc] using hopening.2) he,
    lines_pieces hmargin he (fun piece hpiece => (mem_writtenPieces hcontent hpiece).2), hend]

/-! ## Reading them -/

@[simp] theorem behind?_append (front text : List Char) :
    behind? front (front ++ text) = some text := by
  rw [behind?, if_pos (List.isPrefixOf_iff_prefix.mpr (List.prefix_append front text)),
    List.drop_left]

/-- Behind the margin there is nothing on a line that has the margin without blanks at its end. -/
theorem behind?_trimEnd {text : List Char} (h : behind? margin (trimEnd margin) = some text) :
    text = [] := by
  unfold behind? at h
  split at h
  · rw [Option.some.injEq] at h
    rw [← h, List.drop_eq_nil_iff]
    exact (trimEnd_isPrefix margin).length_le
  · cases h

/-- A written piece is read as the piece. -/
theorem bodyLine?_writeLine (hreturn : '\r' ∉ piece) :
    bodyLine? margin (writeLine margin piece) = some piece := by
  rw [writeLine, dropFinal_of_not_mem hreturn]
  split
  · next hempty =>
    rw [List.isEmpty_iff.mp hempty, bodyLine?, if_pos rfl]
    cases h : behind? margin (trimEnd margin) with
    | none => rfl
    | some text => rw [behind?_trimEnd h, Option.some_or]
  · rw [bodyLine?, behind?_append, Option.some_or]

/-- **A written piece does not close the fence**: its run is shorter than the run of the marker. -/
theorem not_closes_writeLine (hmarker : isBlank m = false) {body : List Char}
    (hlength : longestRun m body < length) (hpiece : piece ∈ split '\n' body)
    (hreturn : '\r' ∉ piece) :
    closesBehind margin m length (writeLine margin piece) = false := by
  have hrun : leadingRun m (trimStart piece) < length := by
    rcases exists_line_of_mem_split hpiece with rfl | ⟨line, hline, hprefix⟩
    · exact Nat.lt_of_le_of_lt (Nat.zero_le _) hlength
    · rw [dropFinal_of_not_mem hreturn] at hprefix
      have hle := leadingRun_dropWhile_le (fun _ h => h) hmarker hprefix
      exact Nat.lt_of_le_of_lt (hle.trans (leadingRun_le_longestRun hline)) hlength
  have hopen : ∀ text, leadingRun m (trimStart text) < length →
      (length ≤ leadingRun m (trimStart text) &&
        ((trimStart text).dropWhile (· = m)).all isBlank) = false := fun text hlt => by
    rw [decide_eq_false (Nat.not_le.mpr hlt), Bool.false_and]
  rw [writeLine, dropFinal_of_not_mem hreturn]
  split
  · rw [closesBehind]
    cases h : behind? margin (trimEnd margin) with
    | none => rfl
    | some text =>
      rw [behind?_trimEnd h]
      exact hopen [] (Nat.lt_of_le_of_lt (Nat.zero_le _) hlength)
  · rw [closesBehind, behind?_append]
    exact hopen piece hrun

/-- The marker behind the margin closes the fence. -/
theorem closesBehind_marker (hmarker : isBlank m = false) (n : Nat) :
    closesBehind margin m n (margin ++ List.replicate n m) = true := by
  have htrim : trimStart (List.replicate n m) = List.replicate n m := by
    cases n with
    | zero => rfl
    | succ n => exact List.dropWhile_cons_of_neg (by simp [hmarker])
  rw [closesBehind, behind?_append]
  dsimp only
  rw [htrim, leadingRun_replicate]
  simp

/-- Pieces that do not close the fence are read, up to a line that does. -/
theorem readBody?_pieces {pieces : List (List Char)} {last : List Char} (rest : List (List Char))
    (hpieces : ∀ piece ∈ pieces, closesBehind margin m length (writeLine margin piece) = false ∧
      bodyLine? margin (writeLine margin piece) = some piece)
    (hlast : closesBehind margin m length last = true) :
    readBody? margin m length (pieces.map (writeLine margin) ++ last :: rest) =
      some (pieces, rest) := by
  induction pieces with
  | nil => rw [List.map_nil, List.nil_append, readBody?, if_pos hlast]
  | cons piece pieces ih =>
    obtain ⟨⟨hcloses, hline⟩, hothers⟩ := List.forall_mem_cons.mp hpieces
    rw [List.map_cons, List.cons_append, readBody?, hcloses, hline, ih hothers]
    rfl

/-- The pieces are the content, without a line feed at its end. -/
theorem join_writtenPieces (content : List Char) :
    join ['\n'] (writtenPieces content) = dropFinal '\n' content := by
  unfold writtenPieces
  split
  · next hempty =>
    rw [List.isEmpty_iff.mp hempty]
    rfl
  · exact Text.join_split '\n' _

theorem writtenPieces_eq_nil_iff : writtenPieces content = [] ↔ content = [] := by
  unfold writtenPieces
  split
  · next hempty => exact iff_of_true rfl (List.isEmpty_iff.mp hempty)
  · next hne => exact iff_of_false (Text.split_ne_nil '\n' _) (by simpa using hne)

/-- A written fence ends with a line end exactly when the old one did. -/
theorem endsWith_writeFence {shape : FenceShape} (hmarker : isUnbroken shape.marker)
    (he : IsEnding ending) :
    Text.endsWith '\n' (writeFence shape info content ending) = shape.isOpen := by
  have hending : ending.getLast? = some '\n' := by rcases he with rfl | rfl <;> rfl
  obtain ⟨c, hc, hclosing⟩ :=
    getLast?_append_writtenMarker hmarker (List.forall_mem_nil _) content shape.margin
  rw [List.append_nil] at hc
  rw [Text.endsWith_eq, writeFence_eq]
  cases shape.isOpen with
  | true => simp [List.getLast?_append, hending]
  | false => simpa [List.getLast?_append, hc] using hclosing.1

/-- **A written fence is read back.** The reader finds the info behind a run that is no shorter than
the old one, and stops at the last line. The lines that it took are those of the content. -/
theorem renderFence_readBack {fence : Fence} {shape : FenceShape}
    (hshape : FenceShape.ofText old fence.parsedBody.toList = shape)
    (hinfo : ∀ c ∈ fence.info.toList, isUnbroken c)
    (hstart : fence.info.toList.head? ≠ some shape.marker) (hcontent : '\r' ∉ content)
    (he : IsEnding ending) :
    ∃ length body,
      readFence? shape.indent shape.margin shape.marker (renderFence old fence content ending) =
        some ⟨length, fence.info.toList, body, []⟩ ∧
      shape.length ≤ length ∧
      join ['\n'] body = dropFinal '\n' content ∧ (body = [] ↔ content = []) ∧
      Text.endsWith '\n' (renderFence old fence content ending) = Text.endsWith '\n' old := by
  have hmarker : isBlank shape.marker = false := hshape ▸ marker_ofText old _
  obtain ⟨hindent, hmargin⟩ := hshape ▸ not_mem_ofText old fence.parsedBody.toList
  have hisOpen : shape.isOpen = Text.endsWith '\n' old := hshape ▸ rfl
  have hunbroken := isUnbroken_of_not_isBlank hmarker
  have hlines := lines_writeFence hindent hmargin hunbroken hinfo hcontent he
  unfold renderFence
  rw [hshape]
  refine ⟨max shape.length (longestRun shape.marker (dropFinal '\n' content) + 1),
    writtenPieces content, ?_, Nat.le_max_left .., join_writtenPieces content,
      writtenPieces_eq_nil_iff,
    hisOpen ▸ endsWith_writeFence hunbroken he⟩
  generalize hn : max shape.length (longestRun shape.marker (dropFinal '\n' content) + 1) = n
  have hrun : writtenMarker shape content = List.replicate n shape.marker := by
    rw [writtenMarker, hn]
  have hpieces : ∀ piece ∈ writtenPieces content,
      closesBehind shape.margin shape.marker n (writeLine shape.margin piece) = false ∧
        bodyLine? shape.margin (writeLine shape.margin piece) = some piece := by
    intro piece hpiece
    obtain ⟨hsplit, -, hreturn⟩ := mem_writtenPieces hcontent hpiece
    exact ⟨not_closes_writeLine hmarker (by omega) hsplit hreturn, bodyLine?_writeLine hreturn⟩
  have hread := readBody?_pieces [] hpieces (closesBehind_marker hmarker n)
  rw [readFence?, hlines, hrun]
  dsimp only
  rw [behind?_append]
  dsimp only
  rw [leadingRun_append n hstart, hread, Option.map_some,
    List.drop_left' (List.length_replicate)]

/-- A fence in a quote gets an empty line, and a line that would have closed it. -/
theorem renderFence_readBack_quoted :
    ∃ length body, readFence? [] "> ".toList '`' (renderFence "```rs\n> x\n> ```".toList
        (.ofParsed none "rs" "x") "a\n\n  ```\n".toList ['\n']) =
        some ⟨length, "rs".toList, body, []⟩ ∧
      3 ≤ length ∧ join ['\n'] body = "a\n\n  ```".toList := by
  have hshape : FenceShape.ofText "```rs\n> x\n> ```".toList "x".toList =
      ⟨[], '`', 3, "> ".toList, false⟩ := by decide +kernel
  have hinfo : ∀ c ∈ "rs".toList, isUnbroken c := fun c hc =>
    ⟨fun h => absurd (h ▸ hc) (by decide), fun h => absurd (h ▸ hc) (by decide)⟩
  obtain ⟨length, body, hread, hlength, hbody, -, -⟩ :=
    @renderFence_readBack "a\n\n  ```\n".toList ['\n']
    "```rs\n> x\n> ```".toList (.ofParsed none "rs" "x") _ hshape hinfo (by decide) (by decide)
      (Or.inl rfl)
  exact ⟨length, body, hread, hlength, hbody.trans (by decide)⟩

end LiveDoc.Layout
