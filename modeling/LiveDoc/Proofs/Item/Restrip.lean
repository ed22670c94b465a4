import LiveDoc.Proofs.Item.HeaderText

/-!
# Stripping a declaration twice

A declaration whose body is stripped is read again: its header with a brace behind it on the same
line, the doc comments of the body on lines of their own, and the placeholder. Stripping it once
more gives it back unless its header takes the brace away (`stripBody_stripBody`): a line comment at
the end of the header does so, and a header that ends in front of its name or inside of brackets.
-/

namespace LiveDoc.Item

open Piece (Reads delimitedKinds)
open Text (trimEnd)

variable {source text header : List Char}

/-! ## Items that can be stripped -/

theorem stripBody_of_body {i : Item} {more : List Item} {b : Text.Span}
    (hscan : scan source = i :: more) (hkind : i.kind.hasStrippableBody = true)
    (hb : i.body = some b) :
    stripBody source = .ok (writeDeclaration (trimEnd (cut source ⟨i.span.start, b.start⟩))
      (i.innerDocs.map (cut source))) := by
  simp [stripBody, hscan, declaration?, hkind, hb]

theorem stripBody_of_bodyless {i : Item} {more : List Item} (hscan : scan source = i :: more)
    (hb : i.body = none) : stripBody source =
      .error (.unsupportedDeclaration (String.ofList (firstLine source))) := by
  simp [stripBody, hscan, declaration?, hb]

theorem of_stripBody (h : stripBody source = .ok text) : ∃ i more b, scan source = i :: more ∧
    i.kind.hasStrippableBody = true ∧ i.body = some b ∧
    text = writeDeclaration (trimEnd (cut source ⟨i.span.start, b.start⟩))
      (i.innerDocs.map (cut source)) := by
  unfold stripBody at h
  split at h
  · next declaration hdeclaration =>
    obtain ⟨i, hi, hdeclaration⟩ := Option.bind_eq_some_iff.mp hdeclaration
    obtain ⟨more, hscan⟩ := List.head?_eq_some_iff.mp hi
    unfold declaration? at hdeclaration
    split at hdeclaration
    · next hkind =>
      obtain ⟨b, hb, rfl⟩ := Option.map_eq_some_iff.mp hdeclaration
      exact ⟨i, more, b, hscan, hkind, hb, by simpa using h.symm⟩
    · cases hdeclaration
  · cases h

/-! ## The text of a declaration -/

/-- What stands behind the doc comments of a body that is left out. -/
def bodyEnd : List Char := '\n' :: bodyIndent ++ placeholder ++ "\n\x7d\n".toList

/-- Doc comments on lines of their own. -/
def docLines (docs : List (List Char)) : List Char :=
    docs.flatMap fun doc => '\n' :: bodyIndent ++ doc

theorem writeDeclaration_eq (header : List Char) (docs : List (List Char)) :
    writeDeclaration header docs = header ++ ' ' :: '{' :: (docLines docs ++ bodyEnd) := by
  have hlines : '\n' :: docs.flatMap (fun doc => bodyIndent ++ doc ++ ['\n']) =
      docLines docs ++ ['\n'] := by
    induction docs with
    | nil => rfl
    | cons doc docs ih =>
      have hrest : '\n' :: (docs.flatMap fun doc => bodyIndent ++ doc ++ ['\n']) =
        docLines docs ++ ['\n'] := ih
      simp only [docLines, List.flatMap_cons, List.append_assoc, List.cons_append,
        List.nil_append] at hrest ⊢
      rw [hrest]
  have hbody : writeDeclaration header docs = header ++ ' ' :: '{' ::
      (('\n' :: docs.flatMap fun doc => bodyIndent ++ doc ++ ['\n']) ++
        (bodyIndent ++ placeholder ++ "\n\x7d\n".toList)) := by
    simp [writeDeclaration]
  rw [hbody, hlines, bodyEnd]
  simp

/-- Doc comments as they stand in a body that is left out. -/
def docPieces (docs : List Piece) : List Piece :=
  docs.flatMap fun doc => [⟨.blank, '\n' :: bodyIndent⟩, doc]

theorem written_docPieces (docs : List Piece) :
    written (docPieces docs) = docLines (docs.map (·.text)) := by
  induction docs with
  | nil => rfl
  | cons doc docs ih =>
    have hrest : written (docPieces (doc :: docs)) =
        '\n' :: bodyIndent ++ (doc.text ++ written (docPieces docs)) := rfl
    rw [hrest, ih]
    simp [docLines]

/-! ## Closed comments -/

/-- Whether a comment ends in front of a line feed that is put behind it. -/
def IsClosed (comment : List Char) : Prop :=
  (pieces (comment ++ ['\n'])).head?.map (·.text) = some comment

instance (comment : List Char) : Decidable (IsClosed comment) :=
  inferInstanceAs (Decidable (_ = _))

/-- A piece that is an inner doc comment. -/
structure IsDoc (p : Piece) : Prop where
  reads : ∃ left, Reads p.kind p.text left
  kind : Lexeme.ofPiece? p = some .innerDoc

theorem IsDoc.comment {p : Piece} (h : IsDoc p) :
    p.kind = .lineComment ∨ p.kind = .blockComment := by
  rcases ofPiece?_cases h.kind with ⟨hcomment, -⟩ | ⟨hne, -⟩
  · exact hcomment
  · exact absurd rfl hne

theorem IsDoc.ne_blank {p : Piece} (h : IsDoc p) : p.kind ≠ .blank := by
  rcases h.comment with hk | hk <;> rw [hk] <;> decide

theorem reads_lineFeed {k : Piece.Kind} {comment : List Char} (h : Reads k comment ['\n'])
    (hk : k = .lineComment ∨ k = .blockComment) (more : List Char) :
    Reads k comment ('\n' :: more) := by
  refine h.blank_behind rfl ?_ (fun _ => rfl) (fun _ => List.cons_ne_nil _ _) ?_
  · rcases hk with rfl | rfl <;> decide
  · rcases hk with rfl | rfl <;> exact nofun

theorem IsDoc.reads_of_isClosed {p : Piece} (h : IsDoc p) (hclosed : IsClosed p.text)
    (more : List Char) : Reads p.kind p.text ('\n' :: more) := by
  obtain ⟨left, hreads⟩ := h.reads
  have halone : Reads p.kind p.text [] := Piece.Reads.cut (u := []) hreads
  rcases halone.lineFeed h.ne_blank with hends | ⟨-, hlonger⟩
  · exact reads_lineFeed hends h.comment more
  · exfalso
    have hpieces := pieces_of_reads hlonger
    rw [List.append_nil] at hpieces
    rw [IsClosed, hpieces] at hclosed
    have hlength := congrArg List.length (Option.some.inj hclosed)
    simp at hlength

theorem isClosed_of_reads {k : Piece.Kind} {comment : List Char} (h : Reads k comment ['\n']) :
    IsClosed comment := by
  rw [IsClosed, pieces_of_reads h]
  rfl

/-- A comment that is not closed takes everything up to the end of the text. -/
theorem blockRest_unclosed {taken more : List Char} (hmore : '/' ∉ more)
    (h : Piece.blockRest 1 (taken ++ ['\n']) = (taken ++ ['\n'], [])) :
    Piece.blockRest 1 (taken ++ '\n' :: more) = (taken ++ '\n' :: more, []) := by
  generalize hread : Piece.blockRest 1 (taken ++ '\n' :: more) = result
  obtain ⟨x, y⟩ := result
  have hsplit := (Piece.delimits_blockRest 1).append_eq hread
  by_cases hy : y = []
  · rw [hy, hsplit, hy, List.append_nil]
  -- what ends with its end mark ends in front of the line feed
  have hlast : x.getLast? = some '/' := by
    have hend := Piece.blockRest_end 1 (taken ++ '\n' :: more)
    rw [hread] at hend
    exact hend hy
  obtain ⟨z, rfl⟩ : ∃ z, taken = x ++ z := by
    rcases List.append_eq_append_iff.mp hsplit with ⟨z, rfl, hback⟩ | ⟨z, htaken, -⟩
    · cases hz : z.getLast? with
      | none => exact ⟨[], by rw [List.getLast?_eq_none_iff.mp hz]; simp⟩
      | some c =>
        rw [List.getLast?_append, hz] at hlast
        have hmem : '/' ∈ '\n' :: more := by
          rw [hback, ← Option.some.inj hlast]
          exact List.mem_append_left y (List.mem_of_getLast? hz)
        rcases List.mem_cons.mp hmem with hline | hmem
        · cases hline
        · exact absurd hmem hmore
    · exact ⟨z, htaken⟩
  obtain rfl : z ++ '\n' :: more = y :=
    List.append_cancel_left ((List.append_assoc x z _).symm.trans hsplit)
  rw [List.append_assoc] at hread h
  have hstays := (Piece.delimits_blockRest 1).stays hread hy (z ++ ['\n'])
  rw [h] at hstays
  have hnil : [] = z ++ ['\n'] := (Prod.mk.inj hstays).2
  simp at hnil

/-- **A doc comment that is not closed** goes on with what is written behind it. -/
theorem IsDoc.unclosed {p : Piece} (h : IsDoc p) (hopen : ¬ IsClosed p.text) {more : List Char}
    (hmore : '/' ∉ more) : Reads .blockComment (p.text ++ '\n' :: more) [] ∧
      Lexeme.ofPiece? ⟨.blockComment, p.text ++ '\n' :: more⟩ = some .innerDoc := by
  obtain ⟨left, hreads⟩ := h.reads
  have halone : Reads p.kind p.text [] := Piece.Reads.cut (u := []) hreads
  rcases halone.lineFeed h.ne_blank with hends | ⟨hk, hlonger⟩
  · exact absurd (isClosed_of_reads hends) hopen
  have hblock : p.kind = .blockComment := by
    rcases h.comment with hline | hblock
    · rw [hline] at hk
      exact absurd hk (by decide)
    · exact hblock
  have hdoc := h.kind
  rw [hblock] at halone hlonger
  obtain ⟨o, taken, f, ho, htext, -⟩ := halone.opens (by decide)
  obtain ⟨o', taken', f', ho', htext', hf'⟩ := hlonger.opens (by decide)
  cases ho
  cases ho'
  rw [htext, List.append_assoc] at htext'
  obtain rfl := List.append_cancel_left htext'
  rw [List.append_nil] at hf'
  constructor
  · have hread := blockRest_unclosed hmore hf'
    rw [htext, List.append_assoc]
    exact .delimited .blockComment (by rw [List.append_nil, hread])
  · have hcomment : Lexeme.ofComment? p.text = some .innerDoc := by
      simpa [Lexeme.ofPiece?, hblock] using hdoc
    have hempty : p.text ≠ "/**/".toList := by
      intro hempty
      rw [hempty] at hcomment
      revert hcomment
      decide
    exact (ofComment?_lineFeed hempty more).trans hcomment

/-! ## Bodies that are left out -/

/-- The pieces behind the doc comments of a body that is left out. -/
def endPieces : List Piece :=
  [⟨.blank, '\n' :: bodyIndent⟩, ⟨.unknown, ['.']⟩, ⟨.unknown, ['.']⟩, ⟨.unknown, ['.']⟩,
    ⟨.blank, ['\n']⟩, ⟨.close, ['\x7d']⟩, ⟨.blank, ['\n']⟩]

theorem pieces_bodyEnd : pieces bodyEnd = endPieces := by decide +kernel

theorem bodyPieces_endPieces : BodyPieces endPieces where
  pieced := pieces_bodyEnd ▸ (pieced_pieces bodyEnd).1
  lineFeed := rfl
  tokens := ⟨[_, _, _], _, rfl, by decide, by decide⟩

/-- The texts of the doc comments at the start of a body. -/
def docTexts (tail : List Piece) : List (List Char) :=
  ((Lexeme.ofPieces 0 tail).takeWhile (·.kind = .innerDoc)).map (·.text)

/-- They are the same wherever the body stands. -/
theorem docTexts_eq (place : Nat) (tail : List Piece) :
    ((Lexeme.ofPieces place tail).takeWhile (·.kind = .innerDoc)).map (·.text) = docTexts tail := by
  have hplace : Lexeme.ofPieces place tail = (Lexeme.ofPieces 0 tail).map (·.shift place) := by
    rw [← Lexeme.ofPieces_add, Nat.zero_add]
  rw [hplace, List.takeWhile_map, List.map_map]
  rfl

/-- The tokens of doc comments on lines of their own. -/
theorem exists_docTokens {docs : List Piece} (hdocs : ∀ d ∈ docs, IsDoc d) (place : Nat) :
    (∀ t ∈ Lexeme.ofPieces place (docPieces docs), t.kind = .innerDoc) ∧
      (Lexeme.ofPieces place (docPieces docs)).map (·.text) = docs.map (·.text) := by
  induction docs generalizing place with
  | nil => exact ⟨nofun, rfl⟩
  | cons doc docs ih =>
    have hkind := (hdocs doc List.mem_cons_self).kind
    have hsplit : docPieces (doc :: docs) =
        ⟨.blank, '\n' :: bodyIndent⟩ :: doc :: docPieces docs := rfl
    obtain ⟨hkinds, htexts⟩ := ih (fun d hd => hdocs d (List.mem_cons_of_mem doc hd))
      (place + Text.byteLength ('\n' :: bodyIndent) + Text.byteLength doc.text)
    rw [hsplit, Lexeme.ofPieces_cons_none rfl, Lexeme.ofPieces_cons_some hkind]
    refine ⟨fun t ht => ?_, by rw [List.map_cons, htexts, List.map_cons]⟩
    rcases List.mem_cons.mp ht with rfl | ht
    · rfl
    · exact hkinds t ht

theorem docTexts_append {docs : List Piece} (hdocs : ∀ d ∈ docs, IsDoc d) (rest : List Piece) :
    docTexts (docPieces docs ++ rest) = docs.map (·.text) ++ docTexts rest := by
  obtain ⟨hkinds, htexts⟩ := exists_docTokens hdocs 0
  rw [docTexts, Lexeme.ofPieces_append, List.takeWhile_append_of_pos (by simpa using hkinds),
    List.map_append, htexts, docTexts_eq]

theorem IsDoc.head? {p : Piece} (h : IsDoc p) : p.text.head? = some '/' := by
  obtain ⟨left, hreads⟩ := h.reads
  rcases h.comment with hk | hk
  · rw [hk] at hreads
    obtain ⟨taken, htext, -⟩ := hreads.of_lineComment
    rw [htext]
    rfl
  · rw [hk] at hreads
    obtain ⟨o, taken, f, ho, htext, -⟩ := hreads.opens (by decide)
    cases ho
    rw [htext]
    rfl

/-- One more doc comment on a line of its own, in front of a body. -/
theorem BodyPieces.cons {doc : Piece} {rest : List Piece} (hdoc : IsDoc doc)
    (hclosed : IsClosed doc.text) (hrest : BodyPieces rest) :
    BodyPieces (⟨.blank, '\n' :: bodyIndent⟩ :: doc :: rest) := by
  refine ⟨?_, rfl, ?_⟩
  · obtain ⟨more, hmore⟩ := List.head?_eq_some_iff.mp hrest.lineFeed
    have hreads := hdoc.reads_of_isClosed hclosed more
    rw [pieced_cons, pieced_cons, List.append_nil, List.append_nil, hmore]
    refine ⟨.blank rfl (List.all_eq_true.mp (by decide)) fun d hd => ?_, hreads, hrest.pieced⟩
    rw [written_cons, List.head?_append, hdoc.head?] at hd
    rw [← Option.some.inj hd]
    rfl
  · obtain ⟨inner, c, htokens, hinner, hc⟩ := hrest.tokens_at
      (0 + Text.byteLength ('\n' :: bodyIndent) + Text.byteLength doc.text)
    rw [Lexeme.ofPieces_cons_none rfl, Lexeme.ofPieces_cons_some hdoc.kind, htokens]
    refine ⟨_ :: inner, c, rfl, fun t ht => ?_, hc⟩
    rcases List.mem_cons.mp ht with rfl | ht
    · show Lexeme.Kind.innerDoc ∈ idleKinds
      decide
    · exact hinner t ht

theorem BodyPieces.docs {docs rest : List Piece} (hdocs : ∀ d ∈ docs, IsDoc d ∧ IsClosed d.text)
    (hrest : BodyPieces rest) : BodyPieces (docPieces docs ++ rest) := by
  induction docs with
  | nil => exact hrest
  | cons doc docs ih =>
    obtain ⟨hdoc, hclosed⟩ := hdocs doc List.mem_cons_self
    exact .cons hdoc hclosed (ih fun d hd => hdocs d (List.mem_cons_of_mem doc hd))

/-- The body of a declaration whose last doc comment is not closed. -/
theorem bodyPieces_unclosed {doc : Piece} (hdoc : IsDoc doc) (hopen : ¬ IsClosed doc.text) :
    BodyPieces [⟨.blank, '\n' :: bodyIndent⟩, ⟨.blockComment, doc.text ++ bodyEnd⟩] ∧
      docTexts [⟨.blank, '\n' :: bodyIndent⟩, ⟨.blockComment, doc.text ++ bodyEnd⟩] =
        [doc.text ++ bodyEnd] := by
  have hslash : '/' ∉ bodyIndent ++ placeholder ++ "\n\x7d\n".toList := by decide
  obtain ⟨hreads, hkind⟩ := hdoc.unclosed hopen hslash
  have hkind' : Lexeme.ofPiece? ⟨.blockComment, doc.text ++ bodyEnd⟩ = some .innerDoc := hkind
  have hblank : Reads .blank ('\n' :: bodyIndent) (doc.text ++ bodyEnd) := by
    refine .blank rfl (List.all_eq_true.mp (by decide)) fun d hd => ?_
    rw [List.head?_append, hdoc.head?] at hd
    rw [← Option.some.inj hd]
    rfl
  constructor
  · refine ⟨?_, rfl, [], _, Lexeme.ofPieces_cons_some hkind' _ _, nofun, ?_⟩
    · rw [pieced_cons, pieced_cons]
      exact ⟨by simpa using hblank, hreads, .nil⟩
    · show Lexeme.Kind.innerDoc ∈ quietKinds
      decide
  · rw [docTexts, Lexeme.ofPieces_cons_none rfl, Lexeme.ofPieces_cons_some hkind']
    rfl

/-! ## Doc comments of a source text -/

/-- Tokens that are inner doc comments, as pieces. -/
theorem exists_docs {ts : List Lexeme} (hmem : ∀ t ∈ ts, t ∈ lexemes source)
    (hkinds : ∀ t ∈ ts, t.kind = .innerDoc) :
    ∃ docs : List Piece, docs.map (·.text) = ts.map (·.text) ∧ ∀ d ∈ docs, IsDoc d := by
  induction ts with
  | nil => exact ⟨[], rfl, nofun⟩
  | cons t ts ih =>
    obtain ⟨docs, htexts, hdocs⟩ := ih (fun u hu => hmem u (List.mem_cons_of_mem t hu))
      (fun u hu => hkinds u (List.mem_cons_of_mem t hu))
    obtain ⟨front, back, hsplit⟩ := List.append_of_mem (hmem t List.mem_cons_self)
    obtain ⟨k, left, hreads, hkind, -⟩ := exists_reads_of_lexeme hsplit
    rw [hkinds t List.mem_cons_self] at hkind
    refine ⟨⟨k, t.text⟩ :: docs, by rw [List.map_cons, htexts, List.map_cons], fun d hd => ?_⟩
    rcases List.mem_cons.mp hd with rfl | hd
    · exact ⟨⟨left, hreads⟩, hkind⟩
    · exact hdocs d hd

/-- A doc comment with something behind it is closed. -/
theorem isClosed_of_behind {front ts back : List Lexeme}
    (hsource : lexemes source = front ++ (ts ++ back)) (hback : back ≠ [])
    (hkinds : ∀ t ∈ ts, t.kind = .innerDoc) : ∀ t ∈ ts, IsClosed t.text := by
  intro t ht
  obtain ⟨before, after, rfl⟩ := List.append_of_mem ht
  have hsplit : lexemes source = (front ++ before) ++ t :: (after ++ back) := by
    rw [hsource]
    simp
  obtain ⟨k, left, hreads, hkind, hleft⟩ := exists_reads_of_lexeme hsplit
  rw [hkinds t ht] at hkind
  have hdoc : IsDoc ⟨k, t.text⟩ := ⟨⟨left, hreads⟩, hkind⟩
  have hne : left ≠ [] := hleft (List.append_ne_nil_of_right_ne_nil after hback)
  have hquote : k ≠ .quote := by
    rintro rfl
    rcases hdoc.comment with hk | hk <;> cases hk
  exact isClosed_of_reads
    (hreads.blank_behind rfl hdoc.ne_blank (fun _ => rfl) (fun _ => hne) fun hk => absurd hk hquote)

/-- So only the last of them can be left open. -/
theorem isClosed_of_dropLast {front ts back : List Lexeme}
    (hsource : lexemes source = front ++ (ts ++ back)) (hkinds : ∀ t ∈ ts, t.kind = .innerDoc) :
    ∀ t ∈ ts.dropLast, IsClosed t.text := by
  rcases List.eq_nil_or_concat ts with rfl | ⟨init, last, rfl⟩
  · exact nofun
  rw [List.concat_eq_append] at hsource hkinds ⊢
  rw [List.dropLast_concat]
  rw [List.append_assoc, List.singleton_append] at hsource
  exact isClosed_of_behind hsource (List.cons_ne_nil last back) fun t ht =>
    hkinds t (List.mem_append_left [last] ht)

/-- **The doc comments at the start of a body**, as pieces. -/
theorem exists_innerDocs {i : Item} {front ts back : List Lexeme}
    (hsource : lexemes source = front ++ (ts ++ back)) (hkinds : ∀ t ∈ ts, t.kind = .innerDoc)
    (hdocs : i.innerDocs = ts.map (·.span)) :
    ∃ docs : List Piece, i.innerDocs.map (cut source) = docs.map (·.text) ∧ (∀ d ∈ docs, IsDoc d) ∧
      (∀ d ∈ docs.dropLast, IsClosed d.text) ∧ (back ≠ [] → ∀ d ∈ docs, IsClosed d.text) := by
  have hmem : ∀ t ∈ ts, t ∈ lexemes source := by
    intro t ht
    rw [hsource]
    exact List.mem_append_right front (List.mem_append_left back ht)
  obtain ⟨docs, htexts, hpieces⟩ := exists_docs hmem hkinds
  refine ⟨docs, ?_, hpieces, fun d hd => ?_, fun hback d hd => ?_⟩
  · rw [hdocs, List.map_map, htexts]
    apply List.map_congr_left
    intro t ht
    exact congrArg (Option.getD · []) (slice_of_mem_lexemes (hmem t ht))
  · have hd' : d.text ∈ ts.dropLast.map (·.text) := by
      rw [List.map_dropLast, ← htexts, ← List.map_dropLast]
      exact List.mem_map_of_mem hd
    obtain ⟨t, ht, hsame⟩ := List.mem_map.mp hd'
    rw [← hsame]
    exact isClosed_of_dropLast hsource hkinds t ht
  · have hd' : d.text ∈ ts.map (·.text) := by
      rw [← htexts]
      exact List.mem_map_of_mem hd
    obtain ⟨t, ht, hsame⟩ := List.mem_map.mp hd'
    rw [← hsame]
    exact isClosed_of_behind hsource hback hkinds t ht

/-- A bracket that ends a body stands behind these doc comments. -/
theorem rest_ne_nil_of_close {i : Item} {b : Text.Span}
    {front own back header ts rest : List Lexeme} {o c : Lexeme} (howns : Owns own i)
    (hsource : lexemes source = front ++ (own ++ back)) (hb : i.body = some b)
    (hown : own = header ++ o :: (ts ++ rest)) (hopen : o.kind = .open)
    (hkinds : ∀ t ∈ ts, t.kind = .innerDoc) (hc : c ∈ lexemes source) (hclose : c.kind = .close)
    (hstop : c.span.stop = b.stop) : rest ≠ [] := by
  obtain ⟨-, last, -, hlast, -, hbody⟩ := howns.spans
  have hmem : last ∈ lexemes source := by
    rw [hsource]
    exact List.mem_append_right front (List.mem_append_left back (List.mem_of_getLast? hlast))
  -- the bracket is the last token of the item
  obtain rfl : c = last := by
    apply (placed_lexemes source).eq_of_stop hc hmem
    rcases hbody with ⟨hnone, -⟩ | ⟨_, _, _, -, -, -, hsome, -⟩
    · rw [hnone] at hb
      cases hb
    · rw [hsome] at hb
      rw [hstop, ← Option.some.inj hb]
  rintro rfl
  rw [hown, List.append_nil, List.getLast?_append, List.getLast?_cons, Option.some_or] at hlast
  have hother : c.kind = .open ∨ c.kind = .innerDoc := by
    rw [← Option.some.inj hlast]
    cases hts : ts.getLast? with
    | none => exact .inl hopen
    | some t => exact .inr (hkinds t (List.mem_of_getLast? hts))
  rw [hclose] at hother
  rcases hother with hother | hother <;> cases hother

/-- The last token of a body that is left out is its closing brace, in front of the last line
feed. -/
theorem exists_last_of_endPieces (front : List Piece) (place : Nat) :
    ∃ last, (Lexeme.ofPieces place (front ++ endPieces)).getLast? = some last ∧
      last.span.stop + 1 = place + Text.byteLength (written (front ++ endPieces)) := by
  obtain ⟨before, last, htokens, hstop⟩ : ∃ before last,
      Lexeme.ofPieces (place + Text.byteLength (written front)) endPieces = before ++ [last] ∧
        last.span.stop + 1 = place + Text.byteLength (written front) + 11 :=
    ⟨[_, _, _], _, rfl, rfl⟩
  refine ⟨last, ?_, ?_⟩
  · rw [Lexeme.ofPieces_append, htokens, ← List.append_assoc, List.getLast?_concat]
  · rw [hstop, written_append, Text.byteLength_append, Nat.add_assoc]
    rfl

/-- **The body of a declaration as it is read again.** If all its doc comments are closed they are
found again, else the last of them takes the rest of the text. -/
theorem exists_bodyPieces {docs : List Piece} (hdocs : ∀ d ∈ docs, IsDoc d)
    (hclosed : ∀ d ∈ docs.dropLast, IsClosed d.text) :
    ∃ tail, BodyPieces tail ∧ written tail = docLines (docs.map (·.text)) ++ bodyEnd ∧
      (((∀ d ∈ docs, IsClosed d.text) ∧ docTexts tail = docs.map (·.text) ∧
        ∀ place, ∃ last, (Lexeme.ofPieces place tail).getLast? = some last ∧
          last.span.stop + 1 = place + Text.byteLength (written tail)) ∨
      ((∃ d ∈ docs, ¬ IsClosed d.text) ∧
        docLines (docTexts tail) = docLines (docs.map (·.text)) ++ bodyEnd)) := by
  by_cases hall : ∀ d ∈ docs, IsClosed d.text
  · have hwritten : written endPieces = bodyEnd := by decide
    have hnone : docTexts endPieces = [] := by decide
    refine ⟨docPieces docs ++ endPieces, bodyPieces_endPieces.docs fun d hd =>
      ⟨hdocs d hd, hall d hd⟩, ?_, .inl ⟨hall, ?_, exists_last_of_endPieces (docPieces docs)⟩⟩
    · rw [written_append, written_docPieces, hwritten]
    · rw [docTexts_append hdocs, hnone, List.append_nil]
  · rcases List.eq_nil_or_concat docs with rfl | ⟨init, d, rfl⟩
    · exact absurd nofun hall
    rw [List.concat_eq_append] at *
    rw [List.dropLast_concat] at hclosed
    have hopen : ¬ IsClosed d.text := by
      intro hd
      apply hall
      intro e he
      rcases List.mem_append.mp he with he | he
      · exact hclosed e he
      · rwa [List.mem_singleton.mp he]
    have hd : d ∈ init ++ [d] := by simp
    have hinit : ∀ e ∈ init, IsDoc e := fun e he => hdocs e (List.mem_append_left [d] he)
    obtain ⟨hrest, htexts⟩ := bodyPieces_unclosed (hdocs d hd) hopen
    refine ⟨_, hrest.docs fun e he => ⟨hinit e he, hclosed e he⟩, ?_, .inr ⟨⟨d, hd, hopen⟩, ?_⟩⟩
    · rw [written_append, written_docPieces]
      simp [docLines]
    · rw [docTexts_append hinit, htexts]
      simp [docLines]

/-! ## Stripping again -/

/-- Whether a header opens a body with a brace that is put behind it on its last line. -/
def OpensBody (header : List Char) : Prop :=
  ((scan (header ++ " \x7b\n\x7d".toList)).head?.bind (·.body)).isSome

instance (header : List Char) : Decidable (OpensBody header) :=
  inferInstanceAs (Decidable (_ = _))

section Again

variable {i : Item} {init tail : List Piece} {front mods after : List Lexeme} {k : Lexeme}
  (h : HeaderText i header init front mods k after)

include h

theorem HeaderText.opensBody_iff :
    OpensBody header ↔ (∀ p ∈ (pieces header).getLast?, p.kind ≠ .lineComment) ∧ Fits after := by
  have htail : BodyPieces [⟨.blank, ['\n']⟩, ⟨.close, ['\x7d']⟩] := by
    refine ⟨?_, rfl, [], _, rfl, nofun, by decide⟩
    have hpieces : pieces "\n\x7d".toList = [⟨.blank, ['\n']⟩, ⟨.close, ['\x7d']⟩] := by
      decide +kernel
    exact hpieces ▸ (pieced_pieces "\n\x7d".toList).1
  constructor
  · intro hopens
    by_contra hno
    obtain ⟨j, more, hscan, hbody⟩ := h.scan_bodyless htail hno
    have hnone : ((scan (header ++ " \x7b\n\x7d".toList)).head?.bind (·.body)) = none :=
      (congrArg (fun items : List Item => items.head?.bind (·.body)) hscan).trans hbody
    rw [OpensBody, hnone] at hopens
    cases hopens
  · rintro ⟨hline, hfits⟩
    obtain ⟨before, last, -, -, hscan⟩ := h.scan_open htail hline hfits
    have hsome := congrArg (fun items : List Item => (items.head?.bind (·.body)).isSome) hscan
    exact hsome

/-- **A header that opens its body** is found again, with the doc comments of the body. -/
theorem HeaderText.strip_open (htail : BodyPieces tail) (htrim : trimEnd header = header)
    (hopens : OpensBody header) :
    ∃ j last, (Lexeme.ofPieces (Text.byteLength header + 2) tail).getLast? = some last ∧
      scan (header ++ ' ' :: '{' :: written tail) = [j] ∧ j.kind = i.kind ∧ j.name = i.name ∧
      j.body = some ⟨Text.byteLength header + 1, last.span.stop⟩ ∧
      j.innerDocs.map (cut (header ++ ' ' :: '{' :: written tail)) = docTexts tail ∧
      stripBody (header ++ ' ' :: '{' :: written tail) =
        .ok (writeDeclaration header (docTexts tail)) := by
  obtain ⟨hline, hfits⟩ := h.opensBody_iff.mp hopens
  obtain ⟨before, last, hlexemes, hlast, hscan⟩ := h.scan_open htail hline hfits
  generalize hj : Item.mk i.kind i.name _ _ _ = j at hscan
  have hdocs : j.innerDocs.map (cut (header ++ ' ' :: '{' :: written tail)) = docTexts tail := by
    rw [← hj, ← docTexts_eq (Text.byteLength header + 2), List.map_map]
    apply List.map_congr_left
    intro t ht
    have hmem : t ∈ lexemes (header ++ ' ' :: '{' :: written tail) := by
      rw [hlexemes]
      exact List.mem_append_right before ((List.takeWhile_sublist _).mem ht)
    exact congrArg (Option.getD · []) (slice_of_mem_lexemes hmem)
  have hheader : trimEnd (cut (header ++ ' ' :: '{' :: written tail)
      ⟨0, Text.byteLength header + 1⟩) = header := by
    have hslice : Text.slice (header ++ ' ' :: '{' :: written tail)
        ⟨0, Text.byteLength header + 1⟩ = some (header ++ [' ']) := by
      refine Text.slice_eq_some_iff.mpr ⟨[], '{' :: written tail, by simp, rfl, ?_⟩
      rw [Text.byteLength_append, Text.byteLength, Nat.zero_add]
      rfl
    rw [cut, hslice, Option.getD_some, Text.trimEnd_append, if_pos (by decide), htrim]
  refine ⟨j, last, hlast, hscan, by rw [← hj], by rw [← hj], by rw [← hj], hdocs, ?_⟩
  have hbody : j.body = some ⟨Text.byteLength header + 1, last.span.stop⟩ := by rw [← hj]
  have hstart : j.span.start = 0 := by rw [← hj]
  have hkind : j.kind.hasStrippableBody = true := by
    rw [← hj]
    exact h.heads.strippable
  rw [stripBody_of_body hscan hkind hbody, hdocs, hstart, hheader]

/-- **Any other header** leaves no declaration. -/
theorem HeaderText.strip_bodyless (htail : BodyPieces tail) (hopens : ¬ OpensBody header)
    (again : List Char) :
    stripBody (header ++ ' ' :: '{' :: written tail) ≠ .ok again := by
  rw [h.opensBody_iff] at hopens
  obtain ⟨j, more, hscan, hbody⟩ := h.scan_bodyless htail hopens
  rw [stripBody_of_bodyless hscan hbody]
  exact nofun

/-- **A declaration that is read again.** -/
theorem HeaderText.strip_again {docs : List Piece} (htrim : trimEnd header = header)
    (hdocs : ∀ d ∈ docs, IsDoc d) (hclosed : ∀ d ∈ docs.dropLast, IsClosed d.text)
    (htext : text = writeDeclaration header (docs.map (·.text))) :
    (stripBody text = .ok text ↔ OpensBody header ∧ ∀ d ∈ docs, IsClosed d.text) ∧
      (stripBody text = .ok text → ∃ j, scan text = [j] ∧ j.kind = i.kind ∧ j.name = i.name ∧
        j.body = some ⟨Text.byteLength header + 1, Text.byteLength text - 1⟩ ∧
        j.innerDocs.map (cut text) = docs.map (·.text)) := by
  obtain ⟨tail, htail, hwritten, hcases⟩ := exists_bodyPieces hdocs hclosed
  rw [writeDeclaration_eq, ← hwritten] at htext
  by_cases hopens : OpensBody header
  · obtain ⟨j, last, hlast, hscan, hkind, hname, hbody, hinner, hstrip⟩ :=
      h.strip_open htail htrim hopens
    rw [← htext] at hscan hinner hstrip
    rcases hcases with ⟨hall, htexts, hstops⟩ | ⟨⟨d, hd, hopen⟩, hlonger⟩
    · have hagain : stripBody text = .ok text := by
        rw [hstrip, htexts, writeDeclaration_eq, ← hwritten, ← htext]
      refine ⟨iff_of_true hagain ⟨hopens, hall⟩, fun _ => ⟨j, hscan, hkind, hname, ?_, ?_⟩⟩
      · obtain ⟨last', hlast', hstop⟩ := hstops (Text.byteLength header + 2)
        obtain rfl : last = last' := Option.some.inj (hlast.symm.trans hlast')
        have hlength : Text.byteLength text =
            Text.byteLength header + 2 + Text.byteLength (written tail) := by
          have hspace : ' '.utf8Size = 1 := rfl
          have hbrace : '{'.utf8Size = 1 := rfl
          rw [htext, Text.byteLength_append, Text.byteLength, Text.byteLength, hspace, hbrace]
          omega
        rw [hbody, hlength, ← hstop, Nat.add_sub_cancel]
      · rw [hinner, htexts]
    · -- the text has become longer
      have hother : stripBody text ≠ .ok text := by
        intro hagain
        rw [hstrip, writeDeclaration_eq, htext, hwritten, hlonger] at hagain
        have hlength := congrArg List.length (Except.ok.inj hagain)
        simp [bodyEnd] at hlength
      exact ⟨iff_of_false hother fun hboth => hopen (hboth.2 d hd),
        fun hagain => absurd hagain hother⟩
  · have hother : stripBody text ≠ .ok text := by
      rw [htext]
      exact h.strip_bodyless htail hopens _
    exact ⟨iff_of_false hother fun hboth => hopens hboth.1, fun hagain => absurd hagain hother⟩

end Again

/-- **Stripping a declaration again gives it back** exactly if its header opens the body that is put
behind it, and no doc comment of the body is left open; it holds the same item then. If the item has
a name and its body ends with a bracket, that is exactly if the header does not end with a line
comment. -/
theorem stripBody_stripBody (h : stripBody source = .ok text) :
    ∃ i b header docs, (scan source).head? = some i ∧ i.body = some b ∧
      header = trimEnd (cut source ⟨i.span.start, b.start⟩) ∧
      docs = i.innerDocs.map (cut source) ∧ text = writeDeclaration header docs ∧
      (stripBody text = .ok text ↔ OpensBody header ∧ ∀ doc ∈ docs, IsClosed doc) ∧
      (stripBody text = .ok text → ∃ j, scan text = [j] ∧ j.kind = i.kind ∧ j.name = i.name ∧
        j.body = some ⟨Text.byteLength header + 1, Text.byteLength text - 1⟩ ∧
        j.innerDocs.map (cut text) = docs) ∧
      (i.name.isSome → (∃ c ∈ lexemes source, c.kind = .close ∧ c.span.stop = b.stop) →
        (stripBody text = .ok text ↔ ∀ p ∈ (pieces header).getLast?, p.kind ≠ .lineComment)) := by
  obtain ⟨i, more, b, hscan, hkind, hb, htext⟩ := of_stripBody h
  have hi : i ∈ scan source := by
    rw [hscan]
    exact List.mem_cons_self
  obtain ⟨front, own, back, hsource, howns⟩ := (segmented_scan source).exists_own hi
  obtain ⟨init, waiting, mods, k, after, header, o, inner, hown, hopening, hheader, hinner,
    hfits⟩ :=
    exists_headerText howns hsource hkind hb
  -- the doc comments, and what stands behind them
  obtain ⟨ts, rest, rfl, hts, hkinds⟩ : ∃ ts rest, inner = ts ++ rest ∧
      inner.takeWhile (·.kind = .innerDoc) = ts ∧ ∀ t ∈ ts, t.kind = .innerDoc := by
    refine ⟨_, _, List.takeWhile_append_dropWhile.symm, rfl, fun t ht => ?_⟩
    simpa using List.mem_takeWhile_imp ht
  rw [hts] at hinner
  have hcut : lexemes source = (front ++ (header ++ [o])) ++ (ts ++ (rest ++ back)) := by
    rw [hsource, hown]
    simp
  obtain ⟨docs, hinnerDocs, hdocs, hclosed, hbehind⟩ := exists_innerDocs hcut hkinds hinner
  have hforall : (∀ doc ∈ i.innerDocs.map (cut source), IsClosed doc) ↔
      ∀ d ∈ docs, IsClosed d.text := by
    rw [hinnerDocs, List.forall_mem_map]
  obtain ⟨hagain, hsame⟩ := hheader.strip_again (Text.trimEnd_trimEnd _) hdocs hclosed
    (hinnerDocs ▸ htext)
  rw [← hforall] at hagain
  rw [← hinnerDocs] at hsame
  refine ⟨i, b, _, _, by rw [hscan]; rfl, hb, rfl, rfl, htext, hagain, hsame,
    fun hname hclose => ?_⟩
  obtain ⟨c, hc, hkind, hstop⟩ := hclose
  have hrest : rest ≠ [] :=
    rest_ne_nil_of_close howns hsource hb hown hopening hkinds hc hkind hstop
  have hall := hforall.mpr (hbehind (List.append_ne_nil_of_left_ne_nil hrest back))
  have hfit : Fits after := hfits hname (List.append_ne_nil_of_right_ne_nil ts hrest)
  rw [hagain, hheader.opensBody_iff, and_iff_left hall, and_iff_left hfit]

/-- A function whose header ends with a block comment, behind a line comment. -/
def commentedSource : List Char :=
    "fn f<T>() // a\nwhere T: U /* b */ \x7b //! C.\n g() \x7d\n".toList

def commentedDeclaration : List Char :=
  "fn f<T>() // a\nwhere T: U /* b */ \x7b\n    //! C.\n    ...\n\x7d\n".toList

theorem stripBody_stripBody_commented :
    stripBody commentedSource = .ok commentedDeclaration ∧
      stripBody commentedDeclaration = .ok commentedDeclaration := by
  have hstrip : stripBody commentedSource = .ok commentedDeclaration := by decide +kernel
  refine ⟨hstrip, ?_⟩
  obtain ⟨i, b, header, docs, hscan, hb, hheader, -, -, -, -, hagain⟩ := stripBody_stripBody hstrip
  have hitem : (scan commentedSource).head? =
      some ⟨.function, some "f", ⟨0, 49⟩, some ⟨34, 49⟩, [⟨36, 42⟩]⟩ := by decide +kernel
  obtain rfl := Option.some.inj (hscan.symm.trans hitem)
  obtain rfl := Option.some.inj hb
  have hclose : ∃ c ∈ lexemes commentedSource, c.kind = .close ∧ c.span.stop = 49 := by
    decide +kernel
  refine (hagain rfl hclose).mpr ?_
  rw [hheader]
  decide +kernel

/-- **A line comment at the end of a header** takes the brace behind it. -/
theorem stripBody_behind_comment :
    stripBody "fn f() // note\n\x7b\x7d\n".toList =
        .ok "fn f() // note \x7b\n    ...\n\x7d\n".toList ∧
      stripBody "fn f() // note \x7b\n    ...\n\x7d\n".toList =
        .error (.unsupportedDeclaration "fn f() // note \x7b") := by
  decide +kernel

end LiveDoc.Item
