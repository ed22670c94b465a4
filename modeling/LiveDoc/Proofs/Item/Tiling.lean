import LiveDoc.Proofs.Item.Cutting
import LiveDoc.Proofs.Item.Endings
import Mathlib.Logic.ExistsUnique

/-!
# A text and its tokens

The tokens of a text and the blanks between them take each byte of it once, and each token is what
the text can be read as where it stands (`partition_tokens`). This holds whatever the text looks
like: a character that starts no token is one by itself, and a comment or a literal that is not
closed takes the rest.

* `spanned` — the pieces of a text with their places, one behind the other;
* `Partition` — what the tokens and the blanks have of the text, what each token is read as
  (`Piece.Reads`), and where the tokens end that end at a mark.
-/

namespace LiveDoc.Item

open Text (Span byteLength byteLength_append slice)

variable {place : Nat} {source : List Char} {ps : List Piece} {t : Piece × Span}

/-! ## Pieces at their places -/

/-- Pieces one behind the other from a place on, with their places. -/
def spannedFrom (place : Nat) : List Piece → List (Piece × Span)
  | [] => []
  | p :: ps =>
    (p, ⟨place, place + byteLength p.text⟩) :: spannedFrom (place + byteLength p.text) ps

/-- The pieces of a text with their places. -/
def spanned (source : List Char) : List (Piece × Span) := spannedFrom 0 (pieces source)

/-- The tokens of a text: all its pieces but the blanks. -/
def rawTokens (source : List Char) : List (Piece × Span) :=
  (spanned source).filter (·.1.kind ≠ .blank)

/-- Where the blanks of a text are, which separate tokens. -/
def skipped (source : List Char) : List Span :=
  ((spanned source).filter (·.1.kind = .blank)).map (·.2)

/-- A piece has the place behind the pieces in front of it. -/
theorem exists_front (h : t ∈ spannedFrom place ps) : ∃ front back, ps = front ++ t.1 :: back ∧
    t.2.start = place + byteLength (written front) ∧
      t.2.stop = t.2.start + byteLength t.1.text := by
  induction ps generalizing place with
  | nil => cases h
  | cons p ps ih =>
    rcases List.mem_cons.mp h with rfl | h
    · exact ⟨[], ps, rfl, rfl, rfl⟩
    · obtain ⟨front, back, rfl, hstart, hstop⟩ := ih h
      refine ⟨p :: front, back, rfl, ?_, hstop⟩
      rw [hstart, written_cons, byteLength_append, Nat.add_assoc]

/-- No piece starts in front of the first place. -/
theorem le_start (h : t ∈ spannedFrom place ps) : place ≤ t.2.start := by
  obtain ⟨front, back, -, hstart, -⟩ := exists_front h
  omega

theorem spannedFrom_pairwise (place : Nat) (ps : List Piece) :
    (spannedFrom place ps).Pairwise fun s t => s.2.stop ≤ t.2.start := by
  induction ps generalizing place with
  | nil => exact .nil
  | cons p ps ih => exact .cons (fun t ht => le_start ht) (ih _)

/-- There is no place between pieces. -/
theorem exists_contains {i : Nat} (hplace : place ≤ i) (hi : i < place + byteLength (written ps)) :
    ∃ t ∈ spannedFrom place ps, t.2.contains i = true := by
  induction ps generalizing place with
  | nil => exact absurd hi (Nat.not_lt.mpr hplace)
  | cons p ps ih =>
    rw [written_cons, byteLength_append, ← Nat.add_assoc] at hi
    rcases Nat.lt_or_ge i (place + byteLength p.text) with hlt | hge
    · exact ⟨_, List.mem_cons_self, Span.contains_iff.mpr ⟨hplace, hlt⟩⟩
    · obtain ⟨t, ht, hcontains⟩ := ih hge hi
      exact ⟨t, List.mem_cons_of_mem _ ht, hcontains⟩

/-- Spans in order share no place. -/
theorem eq_of_contains {spans : List Span} (h : spans.Pairwise fun s t => s.stop ≤ t.start)
    {s t : Span} (hs : s ∈ spans) (ht : t ∈ spans) {i : Nat} (hsi : s.contains i = true)
    (hti : t.contains i = true) :
    s = t := by
  rw [Span.contains_iff] at hsi hti
  induction h with
  | nil => cases hs
  | @cons first rest hfirst _ ih =>
    rcases List.mem_cons.mp hs with rfl | hsrest <;> rcases List.mem_cons.mp ht with rfl | htrest
    · rfl
    · have hle := hfirst t htrest
      omega
    · have hle := hfirst s hsrest
      omega
    · exact ih hsrest htrest

/-! ## Places between characters -/

theorem utf8ByteSize_ofList (s : List Char) : (String.ofList s).utf8ByteSize = byteLength s := by
  induction s with
  | nil => rfl
  | cons c rest ih =>
    rw [String.ofList_cons, String.utf8ByteSize_append, ih, String.utf8ByteSize_singleton,
      byteLength]

/-- A place that cuts a text in two is a boundary between characters of the encoded text. -/
theorem isValid_byteLength (front back : List Char) :
    String.Pos.Raw.IsValid (String.ofList (front ++ back)) ⟨byteLength front⟩ := by
  refine String.Pos.Raw.isValid_iff_exists_append.mpr
    ⟨String.ofList front, String.ofList back, String.ofList_append, ?_⟩
  rw [← utf8ByteSize_ofList]
  rfl

/-! ## The tokens of a text -/

/-- A piece at its place, with what is left behind it. -/
theorem exists_parts_of_mem_spanned (h : t ∈ spanned source) : ∃ front left,
    Text.Parts source t.2 front t.1.text left ∧ Piece.Reads t.1.kind t.1.text left := by
  obtain ⟨front, back, hpieces, hstart, hstop⟩ := exists_front h
  obtain ⟨hpieced, hsource⟩ := pieced_pieces source
  simp only [hpieces, pieced_append, pieced_cons, List.append_nil] at hpieced
  rw [hpieces, written_append, written_cons] at hsource
  rw [Nat.zero_add] at hstart
  exact ⟨written front, written back, ⟨hsource.symm, hstart, by rw [hstop, hstart]⟩, hpieced.2.1⟩

/-- A blank piece holds blanks. -/
theorem Piece.Reads.isSpace_of_blank {text left : List Char} (h : Piece.Reads .blank text left) :
    ∀ c ∈ text, Piece.isSpace c = true := by
  generalize hkind : Piece.Kind.blank = k at h
  cases h with
  | blank hc htaken => exact List.forall_mem_cons.mpr ⟨hc, htaken⟩
  | delimited ho => cases ho <;> cases hkind
  | mark =>
    unfold Piece.markKind at hkind
    grind
  | _ => cases hkind

/-- The token of the item scanner that a piece at its place is, if it is one. -/
def Lexeme.ofSpanned? (t : Piece × Span) : Option Lexeme :=
  (Lexeme.ofPiece? t.1).map fun kind => ⟨kind, t.1.text, t.2⟩

theorem ofPieces_eq_filterMap (place : Nat) (ps : List Piece) :
    Lexeme.ofPieces place ps = (spannedFrom place ps).filterMap Lexeme.ofSpanned? := by
  induction ps generalizing place with
  | nil => rfl
  | cons p ps ih =>
    cases hp : Lexeme.ofPiece? p with
    | none =>
      rw [Lexeme.ofPieces_cons_none hp, spannedFrom, List.filterMap_cons_none, ih]
      rw [Lexeme.ofSpanned?, hp]
      rfl
    | some kind =>
      rw [Lexeme.ofPieces_cons_some hp, spannedFrom, List.filterMap_cons_some, ih]
      rw [Lexeme.ofSpanned?, hp]
      rfl

/-- The item scanner sees no blanks. -/
theorem lexemes_eq_filterMap (source : List Char) :
    lexemes source = (rawTokens source).filterMap Lexeme.ofSpanned? := by
  rw [lexemes, ofPieces_eq_filterMap, rawTokens, spanned, List.filterMap_filter]
  congr 1
  funext t
  by_cases hkind : t.1.kind = .blank
  · simp [Lexeme.ofSpanned?, Lexeme.ofPiece?, hkind]
  · simp [hkind]

/-- The pieces of a text are its tokens and its blanks. -/
theorem mem_tokens_append_skipped {span : Span} :
    span ∈ (rawTokens source).map (·.2) ++ skipped source ↔ span ∈ (spanned source).map (·.2) := by
  simp only [rawTokens, skipped, List.mem_append, List.mem_map, List.mem_filter, decide_eq_true_eq]
  constructor
  · rintro (⟨t, ⟨ht, -⟩, rfl⟩ | ⟨t, ⟨ht, -⟩, rfl⟩) <;> exact ⟨t, ht, rfl⟩
  · rintro ⟨t, ht, rfl⟩
    by_cases hkind : t.1.kind = .blank
    · exact .inr ⟨t, ⟨ht, hkind⟩, rfl⟩
    · exact .inl ⟨t, ⟨ht, hkind⟩, rfl⟩

/-- The tokens of a text and the blanks between them. Both ends of a token are boundaries between
characters. A token is what the text from its start on is read as: where a comment or a literal
starts, no other token does, and it ends where its kind says. The item scanner goes over these
tokens, less the comments that document nothing. -/
structure Partition (source : List Char) (tokens : List (Piece × Span)) (blanks : List Span) :
    Prop where
  nonempty : ∀ t ∈ tokens, t.2.start < t.2.stop
  ordered : tokens.Pairwise fun s t => s.2.stop ≤ t.2.start
  cut : ∀ t ∈ tokens, slice source t.2 = some t.1.text
  boundaries : ∀ t ∈ tokens, String.Pos.Raw.IsValid (String.ofList source) ⟨t.2.start⟩ ∧
    String.Pos.Raw.IsValid (String.ofList source) ⟨t.2.stop⟩
  blank : ∀ b ∈ blanks, ∃ text, slice source b = some text ∧ ∀ c ∈ text, Piece.isSpace c = true
  covered : ∀ i < byteLength source,
    ∃! span, span ∈ tokens.map (·.2) ++ blanks ∧ span.contains i = true
  reads : ∀ t ∈ tokens, t.1.kind ≠ .blank ∧
    ∃ left, Text.dropBytes t.2.stop source = some left ∧ Piece.Reads t.1.kind t.1.text left
  closes : ∀ t ∈ tokens, t.1.kind = .lineComment ∨ t.1.kind ∈ Piece.delimitedKinds →
    ∃ left, Text.dropBytes t.2.stop source = some left ∧ Piece.Closes t.1.kind t.1.text left
  significant : lexemes source = tokens.filterMap Lexeme.ofSpanned?

/-- **The tokens of a text and the blanks between them take each byte of it once**, and each token
is what the text is read as where the token starts. -/
theorem partition_tokens (source : List Char) :
    Partition source (rawTokens source) (skipped source) := by
  have htoken : ∀ t ∈ rawTokens source, ∃ front left,
      Text.Parts source t.2 front t.1.text left ∧ Piece.Reads t.1.kind t.1.text left :=
    fun t ht => exists_parts_of_mem_spanned (List.mem_filter.mp ht).1
  refine ⟨fun t ht => ?_, ?_, fun t ht => ?_, fun t ht => ?_, fun b hb => ?_, fun i hi => ?_,
    fun t ht => ?_, fun t ht hkind => ?_, ?_⟩
  · obtain ⟨front, left, hparts, hreads⟩ := htoken t ht
    have hlength := mt Text.byteLength_eq_zero_iff.mp hreads.ne_nil
    have hstart := hparts.start
    have hstop := hparts.stop
    omega
  · exact (spannedFrom_pairwise 0 (pieces source)).filter _
  · obtain ⟨front, left, hparts, -⟩ := htoken t ht
    exact Text.slice_eq_some_iff.mpr ⟨front, left, hparts⟩
  · obtain ⟨front, left, hparts, -⟩ := htoken t ht
    have hbehind := isValid_byteLength (front ++ t.1.text) left
    rw [byteLength_append, ← hparts.stop, List.append_assoc, ← hparts.whole] at hbehind
    refine ⟨?_, hbehind⟩
    rw [hparts.start, hparts.whole]
    exact isValid_byteLength front _
  · obtain ⟨t, ht, rfl⟩ := List.mem_map.mp hb
    obtain ⟨hspanned, hkind⟩ := List.mem_filter.mp ht
    obtain ⟨front, left, hparts, hreads⟩ := exists_parts_of_mem_spanned hspanned
    rw [of_decide_eq_true hkind] at hreads
    exact ⟨t.1.text, Text.slice_eq_some_iff.mpr ⟨front, left, hparts⟩, hreads.isSpace_of_blank⟩
  · have hordered : ((spanned source).map (·.2)).Pairwise fun s t => s.stop ≤ t.start :=
      List.pairwise_map.mpr (spannedFrom_pairwise 0 (pieces source))
    obtain ⟨t, ht, hcontains⟩ : ∃ t ∈ spanned source, t.2.contains i = true := by
      refine exists_contains (Nat.zero_le i) ?_
      rwa [(pieced_pieces source).2, Nat.zero_add]
    have hmem : t.2 ∈ (spanned source).map (·.2) := List.mem_map_of_mem ht
    refine ⟨t.2, ⟨mem_tokens_append_skipped.mpr hmem, hcontains⟩, fun span hspan => ?_⟩
    exact eq_of_contains hordered (mem_tokens_append_skipped.mp hspan.1) hmem hspan.2 hcontains
  · obtain ⟨front, left, hparts, hreads⟩ := htoken t ht
    exact ⟨of_decide_eq_true (List.mem_filter.mp ht).2, left, hparts.cuts.2, hreads⟩
  · obtain ⟨front, left, hparts, hreads⟩ := htoken t ht
    exact ⟨left, hparts.cuts.2, hreads.closes hkind⟩
  · exact lexemes_eq_filterMap source

end LiveDoc.Item
