import LiveDoc.Proofs.Item.Alike
import LiveDoc.Proofs.Item.Placement

/-!
# Scanning an item again

The text of an item, cut out of its file, holds this item and nothing else, with the same places
counted from its own start (`scan_slice`). Its pieces are those that it had in the file, its tokens
are the same at other places, and the scanner finds in the tokens of an item what it found in the
file.
-/

namespace LiveDoc

/-- The item at places further to the right. -/
def Item.shift (i : Item) (offset : Nat) : Item :=
  { i with
    span := i.span.shift offset
    body := i.body.map (·.shift offset)
    innerDocs := i.innerDocs.map (·.shift offset) }

namespace Item

open Piece (Reads delimitedKinds)

/-! ## The same item at another place -/

/-- Places that correspond when a text stands `offset` bytes further to the right. -/
def Behind (offset : Nat) (place place' : Nat) : Prop := place = place' + offset

theorem SpanAlike.eq_shift {offset : Nat} {s s' : Text.Span}
    (h : SpanAlike (Behind offset) (Behind offset) s s') : s = s'.shift offset :=
  congrArg₂ Text.Span.mk h.start h.stop

theorem eq_map_of_forall₂ {α β : Type} {R : α → β → Prop} {f : β → α}
    (hR : ∀ a b, R a b → a = f b) {as : List α} {bs : List β} (h : List.Forall₂ R as bs) :
    as = bs.map f := by
  induction h with
  | nil => rfl
  | cons hab _ ih => rw [List.map_cons, ← ih, hR _ _ hab]

theorem ItemAlike.eq_shift {offset : Nat} {i i' : Item}
    (h : ItemAlike (Behind offset) (Behind offset) i i') : i = i'.shift offset := by
  obtain ⟨kind, name, span, body, innerDocs⟩ := i
  obtain ⟨kind', name', span', body', innerDocs'⟩ := i'
  obtain ⟨rfl, rfl, hspan, hbody, hdocs⟩ := h
  have hbody_eq : body = body'.map (·.shift offset) := by
    cases hbody with
    | none => rfl
    | some hb => exact congrArg some hb.eq_shift
  have hspan_eq : span = span'.shift offset := hspan.eq_shift
  have hdocs_eq : innerDocs = innerDocs'.map (·.shift offset) :=
    eq_map_of_forall₂ (fun _ _ hd => hd.eq_shift) hdocs
  rw [shift, hspan_eq, hbody_eq, hdocs_eq]

/-- Tokens at another place. -/
theorem ofPieces_alike (offset : Nat) (ps : List Piece) :
    PlaceAlike (Behind offset) (Behind offset) (Lexeme.ofPieces offset ps)
      (Lexeme.ofPieces 0 ps) := by
  have hshift : Lexeme.ofPieces offset ps = (Lexeme.ofPieces 0 ps).map (·.shift offset) := by
    rw [← Lexeme.ofPieces_add, Nat.zero_add]
  rw [hshift, PlaceAlike, List.forall₂_map_left_iff, List.forall₂_same]
  intro t _
  exact ⟨rfl, .inl rfl, rfl, rfl⟩

/-- **At another place stand the same items.** -/
theorem scanLexemes_ofPieces (offset : Nat) (ps : List Piece) :
    scanLexemes (Lexeme.ofPieces offset ps) =
      (scanLexemes (Lexeme.ofPieces 0 ps)).map (·.shift offset) :=
  eq_map_of_forall₂ (fun _ _ hi => hi.eq_shift) (scanLexemes_alike (ofPieces_alike offset ps))

variable {source : List Char} {own : List Lexeme} {span : Text.Span} {ps : List Piece}

/-- The last token of a text that ends there stands in its last piece. -/
theorem Segment.exists_last (h : Segment source own span ps) {last : Lexeme}
    (hlast : own.getLast? = some last) (hstop : span.stop = last.span.stop) :
    ∃ before p, ps = before ++ [p] ∧ Lexeme.ofPiece? p = some last.kind := by
  obtain ⟨init, rfl⟩ := List.getLast?_eq_some_iff.mp hlast
  obtain ⟨before, p, after, rfl, -, hkind, -, hstart, hend, -⟩ := Lexeme.exists_piece h.tokens
  obtain ⟨_, _, hparts⟩ := Text.slice_eq_some_iff.mp h.slice
  have hlength := hparts.stop
  simp only [written_append, written_cons, Text.byteLength_append] at hlength
  -- the span leaves no place for more pieces
  have hafter : written after = [] := by
    rw [← Text.byteLength_eq_zero_iff]
    have hstart' := hparts.start
    omega
  obtain rfl : after = [] := by
    cases after with
    | nil => rfl
    | cons q after =>
      have hq : q ∈ Item.pieces (written (before ++ p :: q :: after)) := by
        rw [h.pieces]
        simp
      exact absurd (List.append_eq_nil_iff.mp hafter).1 (ne_nil_of_mem_pieces hq)
  exact ⟨before, p, rfl, hkind⟩

/-! ## A line feed behind an item -/

theorem starts_lineFeed {s : String} (hs : '\n' ∉ s.toList) (text more : List Char) :
    Lexeme.starts s (text ++ '\n' :: more) = Lexeme.starts s text := by
  unfold Lexeme.starts
  rw [Bool.eq_iff_iff, List.isPrefixOf_iff_prefix, List.isPrefixOf_iff_prefix]
  exact Piece.prefix_append_cons_iff hs

/-- A comment that takes more lines documents what it did. The empty one is closed and takes no
more. -/
theorem ofComment?_lineFeed {text : List Char} (h : text ≠ "/**/".toList) (more : List Char) :
    Lexeme.ofComment? (text ++ '\n' :: more) = Lexeme.ofComment? text := by
  have hlonger : text ++ '\n' :: more ≠ "/**/".toList := by
    intro heq
    have hmem : '\n' ∈ "/**/".toList := by
      rw [← heq]
      simp
    revert hmem
    decide
  simp only [Lexeme.ofComment?, starts_lineFeed (s := "///") (by decide),
    starts_lineFeed (s := "////") (by decide), starts_lineFeed (s := "/**") (by decide),
    starts_lineFeed (s := "/***") (by decide), starts_lineFeed (s := "//!") (by decide),
    starts_lineFeed (s := "/*!") (by decide), ne_eq, h, hlonger]

/-- A comment or literal that takes one more line feed is the token that it was. -/
theorem ofPiece?_lineFeed {k : Piece.Kind} {text : List Char} (hk : k ∈ delimitedKinds)
    (h : Reads k (text ++ ['\n']) []) :
    Lexeme.ofPiece? ⟨k, text ++ ['\n']⟩ = Lexeme.ofPiece? ⟨k, text⟩ := by
  simp only [delimitedKinds, List.mem_cons, List.not_mem_nil, or_false] at hk
  rcases hk with rfl | rfl | rfl
  · have hempty : text ≠ "/**/".toList := by
      rintro rfl
      obtain ⟨c, a, hsplit, hread⟩ := h.read
      obtain ⟨rfl, rfl⟩ := List.cons.inj hsplit
      revert hread
      decide
    exact ofComment?_lineFeed hempty []
  · rfl
  · rfl

theorem ofComment?_kind {text : List Char} {kind : Lexeme.Kind}
    (h : Lexeme.ofComment? text = some kind) : kind = .outerDoc ∨ kind = .innerDoc := by
  unfold Lexeme.ofComment? at h
  repeat' split at h
  · exact .inl (Option.some.inj h).symm
  · exact .inl (Option.some.inj h).symm
  · exact .inr (Option.some.inj h).symm
  · cases h

/-- What documents is a comment, and words and brackets are pieces of these kinds. -/
theorem ofPiece?_cases {p : Piece} {kind : Lexeme.Kind} (h : Lexeme.ofPiece? p = some kind) :
    ((p.kind = .lineComment ∨ p.kind = .blockComment) ∧ Lexeme.ofComment? p.text = some kind ∧
      (kind = .outerDoc ∨ kind = .innerDoc)) ∨
    (kind ≠ .innerDoc ∧ (kind = .word → p.kind = .word) ∧ (kind = .open → p.kind = .open)) := by
  unfold Lexeme.ofPiece? at h
  split at h
  case h_2 hline => exact .inl ⟨.inl hline, h, ofComment?_kind h⟩
  case h_3 hblock => exact .inl ⟨.inr hblock, h, ofComment?_kind h⟩
  case h_1 => cases h
  all_goals
    obtain rfl := Option.some.inj h
    exact .inr ⟨by decide, by simp [*], by simp [*]⟩

theorem inert_of_reads {k : Piece.Kind} {text left : List Char} (hk : k ∈ delimitedKinds)
    (h : Reads k text left) : Inert text := by
  obtain ⟨o, taken, f, ho, rfl, -⟩ := h.opens hk
  cases ho with
  | blockComment => exact .inr (.inr (by simp))
  | string | rawString => exact .inl (by simp)
  | quote => exact .inr (.inl (by simp))

/-- What stands where a text is lengthened at its end. -/
abbrev LongerAlike : List Lexeme → List Lexeme → Prop := PlaceAlike Eq fun _ _ => True

theorem longerAlike_refl (ts : List Lexeme) : LongerAlike ts ts :=
  List.forall₂_same.mpr fun _ _ => ⟨rfl, .inl rfl, rfl, trivial⟩

/-- **A line feed behind an item** changes no token of it but the end of a comment or literal that
is not closed. -/
theorem longerAlike_lineFeed {before : List Piece} {p : Piece} {kind : Lexeme.Kind}
    (h : pieces (written (before ++ [p])) = before ++ [p]) (hkind : Lexeme.ofPiece? p = some kind) :
    LongerAlike (lexemes (written (before ++ [p])))
      (lexemes (written (before ++ [p]) ++ ['\n'])) := by
  have hblank : p.kind ≠ .blank := by
    intro hblank
    simp [Lexeme.ofPiece?, hblank] at hkind
  have hpieced := (pieced_pieces (written (before ++ [p]))).1
  rw [h, pieced_append, pieced_cons] at hpieced
  obtain ⟨hbefore, hp, -⟩ := hpieced
  simp only [written_cons, written_nil, List.append_nil] at hbefore hp
  -- whatever becomes of the last piece, those in front see no more than a blank behind it
  have hfront := hbefore.extend hp.ne_nil (b := '\n') rfl []
  rw [lexemes, lexemes, h]
  rcases hp.lineFeed hblank with hends | ⟨hk, hlonger⟩
  · have hpieces : Pieced (before ++ [p, ⟨.blank, ['\n']⟩]) [] := by
      rw [pieced_append, pieced_cons, pieced_cons]
      exact ⟨by simpa using hfront, by simpa using hends, .blank rfl (by simp) (by simp), .nil⟩
    have htext : written (before ++ [p]) ++ ['\n'] = written (before ++ [p, ⟨.blank, ['\n']⟩]) := by
      simp
    rw [htext, hpieces.pieces_eq, Lexeme.ofPieces_append, Lexeme.ofPieces_append,
      Lexeme.ofPieces_cons_some hkind, Lexeme.ofPieces_cons_some hkind]
    exact longerAlike_refl _
  · have hpieces : Pieced (before ++ [⟨p.kind, p.text ++ ['\n']⟩]) [] := by
      rw [pieced_append, pieced_cons]
      exact ⟨by simpa using hfront, by simpa using hlonger, .nil⟩
    have htext : written (before ++ [p]) ++ ['\n'] =
        written (before ++ [⟨p.kind, p.text ++ ['\n']⟩]) := by
      simp
    have hsame := (ofPiece?_lineFeed hk hlonger).trans hkind
    rw [htext, hpieces.pieces_eq, Lexeme.ofPieces_append, Lexeme.ofPieces_append,
      Lexeme.ofPieces_cons_some hkind, Lexeme.ofPieces_cons_some hsame]
    refine List.rel_append (longerAlike_refl _) (.cons ?_ .nil)
    have hword : kind ≠ .word := by
      rintro rfl
      rcases ofPiece?_cases hkind with ⟨-, -, hdoc⟩ | ⟨-, hword, -⟩
      · rcases hdoc with hdoc | hdoc <;> cases hdoc
      · rw [hword rfl] at hk
        revert hk
        decide
    exact ⟨rfl, .inr ⟨hword, inert_of_reads hk hp, inert_of_reads hk hlonger⟩, rfl, trivial⟩

/-! ## Items -/

theorem map_start_eq {Q : Nat → Nat → Prop} {b b' : Option Text.Span}
    (h : Option.Rel (SpanAlike Eq Q) b b') (offset : Nat) :
    b'.map (·.start + offset) = b.map (·.start + offset) := by
  cases h with
  | none => rfl
  | some hb => exact congrArg (fun start => some (start + offset)) hb.start.symm

/-- **An item is found again** in its own text, at the same places but for where this starts. With a
line feed behind the text it is still found, whatever the line feed ends. -/
theorem Owns.scan_text {front back : List Lexeme} {i : Item} (h : Owns own i)
    (hsource : lexemes source = front ++ (own ++ back)) :
    ∃ text, Text.slice source i.span = some text ∧
      (∃ j, scan text = [j] ∧ i = j.shift i.span.start ∧ j.span = ⟨0, Text.byteLength text⟩) ∧
      ∃ j, scan (text ++ ['\n']) = [j] ∧ j.kind = i.kind ∧ j.name = i.name ∧ j.span.start = 0 ∧
        j.body.map (·.start + i.span.start) = i.body.map (·.start) := by
  obtain ⟨first, last, hfirst, hlast, hspan, -⟩ := h.spans
  obtain ⟨ps, hps⟩ := exists_segment hsource hfirst hlast
  rw [← hspan] at hps
  -- the text alone
  have hitems := scanLexemes_ofPieces i.span.start ps
  rw [hps.tokens, h.alone] at hitems
  obtain ⟨j, hj, hshift⟩ := List.map_eq_singleton_iff.mp hitems.symm
  have hscan : scan (written ps) = [j] := by rw [scan, lexemes, hps.pieces, hj]
  have hplace : j.span = ⟨0, Text.byteLength (written ps)⟩ := by
    obtain ⟨_, _, hparts⟩ := Text.slice_eq_some_iff.mp hps.slice
    have hstart : j.span.start + i.span.start = i.span.start := congrArg (·.span.start) hshift
    have hstop : j.span.stop + i.span.start = i.span.stop := congrArg (·.span.stop) hshift
    have hparts_start := hparts.start
    have hparts_stop := hparts.stop
    have hzero : j.span.start = 0 := by omega
    have hend : j.span.stop = Text.byteLength (written ps) := by omega
    exact congrArg₂ Text.Span.mk hzero hend
  refine ⟨written ps, hps.slice, ⟨j, hscan, hshift.symm, hplace⟩, ?_⟩
  -- with a line feed behind it
  obtain ⟨before, p, rfl, hkind⟩ := hps.exists_last hlast (by rw [hspan])
  have hlonger := scanLexemes_alike (longerAlike_lineFeed hps.pieces hkind)
  rw [← scan, hscan] at hlonger
  obtain ⟨j', more, hjj', hmore, hscan'⟩ := List.forall₂_cons_left_iff.mp hlonger
  obtain rfl := List.forall₂_nil_left_iff.mp hmore
  refine ⟨j', hscan', ?_, ?_, ?_, ?_⟩
  · rw [← hjj'.kind, ← hshift]
    rfl
  · rw [← hjj'.name, ← hshift]
    rfl
  · rw [← hjj'.span.start, hplace]
  · have hbody : i.body = j.body.map (·.shift i.span.start) := congrArg Item.body hshift.symm
    rw [map_start_eq hjj'.body, hbody, Option.map_map]
    rfl

theorem of_find? {name : String} {items : List Item} {i : Item} (h : find? name items = some i) :
    i ∈ items ∧ i.name = some name := by
  unfold find? at h
  exact ⟨List.mem_of_find?_eq_some h, by simpa using List.find?_some h⟩

/-- **Scanning an item again finds this item**: alone in its own text, spanning all of it, and alone
in the text that is extracted under its name. -/
theorem scan_slice (source : List Char) :
    (∀ i ∈ scan source, ∃ text j, Text.slice source i.span = some text ∧ scan text = [j] ∧
      i = j.shift i.span.start ∧ j.span = ⟨0, Text.byteLength text⟩) ∧
    ∀ name extracted, sourceOf? source name = some extracted →
      ∃ i j, find? name (scan source) = some i ∧ i.name = some name ∧ scan extracted = [j] ∧
        j.kind = i.kind ∧ j.name = some name ∧ j.span.start = 0 ∧
        j.body.map (·.start + i.span.start) = i.body.map (·.start) := by
  have hagain : ∀ i ∈ scan source, ∃ text, Text.slice source i.span = some text ∧
      (∃ j, scan text = [j] ∧ i = j.shift i.span.start ∧ j.span = ⟨0, Text.byteLength text⟩) ∧
      ∃ j, scan (text ++ ['\n']) = [j] ∧ j.kind = i.kind ∧ j.name = i.name ∧ j.span.start = 0 ∧
        j.body.map (·.start + i.span.start) = i.body.map (·.start) := by
    intro i hi
    obtain ⟨front, own, back, hsource, howns⟩ := (segmented_scan source).exists_own hi
    exact howns.scan_text hsource
  constructor
  · intro i hi
    obtain ⟨text, hslice, ⟨j, hscan, hshift, hspan⟩, -⟩ := hagain i hi
    exact ⟨text, j, hslice, hscan, hshift, hspan⟩
  · intro name extracted hextracted
    obtain ⟨i, hfind, rfl⟩ := Option.map_eq_some_iff.mp hextracted
    obtain ⟨hi, hname⟩ := of_find? hfind
    obtain ⟨text, hslice, -, j, hscan, hkind, hsame, hplace⟩ := hagain i hi
    refine ⟨i, j, hfind, hname, ?_, hkind, hsame.trans hname, hplace⟩
    rwa [cut, hslice]

/-- A function whose comment is not closed, extracted from behind a structure. -/
theorem scan_slice_unclosed :
    (∃ text j, Text.slice unclosedSource ⟨10, 41⟩ = some text ∧ scan text = [j] ∧
      ⟨.function, some "f", ⟨10, 41⟩, some ⟨30, 41⟩, [⟨32, 38⟩]⟩ = j.shift 10 ∧
      j.span = ⟨0, Text.byteLength text⟩) ∧
    ∃ i j, find? "f" (scan unclosedSource) = some i ∧ i.name = some "f" ∧
      scan "#[b] fn f(\u00e9: &str) \x7b //! C.\n [\n".toList = [j] ∧ j.kind = i.kind ∧
      j.name = some "f" ∧ j.span.start = 0 ∧
      j.body.map (·.start + i.span.start) = i.body.map (·.start) :=
  ⟨(scan_slice unclosedSource).1 ⟨.function, some "f", ⟨10, 41⟩, some ⟨30, 41⟩, [⟨32, 38⟩]⟩
    (by decide +kernel), (scan_slice unclosedSource).2 "f" _ (by decide +kernel)⟩

end Item

end LiveDoc
