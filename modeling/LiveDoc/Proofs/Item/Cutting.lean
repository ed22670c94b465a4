import LiveDoc.Proofs.Item.Reading
import LiveDoc.Proofs.Text.Slice
import LiveDoc.Item.Lexeme

/-!
# Cutting a text between its pieces

A text is its pieces, one behind the other, and a part of it that is cut out between pieces has the
same pieces when it is read alone (`pieces_written`). The tokens tell where such cuts are: a span
from the start of one token to the end of another, or to the start of another, can always be cut
out.

* `Pieced` — pieces in front of a text, each of which ends where the next begins;
* `exists_cut_before`, `exists_cut_behind` — a cut between tokens is a cut between pieces.
-/

namespace LiveDoc.Item

open Piece

/-! ## Pieces one behind the other -/

/-- The text that is cut into pieces. -/
def written (ps : List Piece) : List Char := ps.flatMap (·.text)

@[simp] theorem written_nil : written [] = [] := rfl

@[simp] theorem written_cons (p : Piece) (ps : List Piece) :
    written (p :: ps) = p.text ++ written ps :=
  rfl

@[simp] theorem written_append (ps qs : List Piece) :
    written (ps ++ qs) = written ps ++ written qs :=
  List.flatMap_append

/-- Pieces that are read one behind the other from the start of a text, where `behind` is left. -/
inductive Pieced : List Piece → List Char → Prop
  | nil {behind : List Char} : Pieced [] behind
  | cons {p : Piece} {ps : List Piece} {behind : List Char} :
      Reads p.kind p.text (written ps ++ behind) → Pieced ps behind → Pieced (p :: ps) behind

theorem pieced_cons {p : Piece} {ps : List Piece} {behind : List Char} :
    Pieced (p :: ps) behind ↔ Reads p.kind p.text (written ps ++ behind) ∧ Pieced ps behind := by
  constructor
  · rintro (_ | ⟨hp, hps⟩)
    exact ⟨hp, hps⟩
  · rintro ⟨hp, hps⟩
    exact .cons hp hps

theorem pieced_append {ps qs : List Piece} {behind : List Char} :
    Pieced (ps ++ qs) behind ↔ Pieced ps (written qs ++ behind) ∧ Pieced qs behind := by
  induction ps with
  | nil => exact ⟨fun h => ⟨.nil, h⟩, fun h => h.2⟩
  | cons p ps ih =>
    rw [List.cons_append, pieced_cons, pieced_cons, ih, written_append, List.append_assoc,
      and_assoc]

/-- The front of a text has the same pieces. -/
theorem Pieced.cut {ps : List Piece} {u t : List Char} (h : Pieced ps (u ++ t)) : Pieced ps u := by
  induction ps with
  | nil => exact .nil
  | cons p ps ih =>
    obtain ⟨hp, hps⟩ := pieced_cons.mp h
    rw [← List.append_assoc] at hp
    exact .cons hp.cut (ih hps)

theorem Pieced.reads {ps : List Piece} {behind : List Char} (h : Pieced ps behind) {p : Piece}
    (hp : p ∈ ps) : ∃ left, Reads p.kind p.text left := by
  obtain ⟨front, back, rfl⟩ := List.append_of_mem hp
  rw [pieced_append, pieced_cons] at h
  exact ⟨_, h.2.1⟩

/-- A blank behind what is left changes nothing. -/
theorem Pieced.extend {ps : List Piece} {u : List Char} (h : Pieced ps u) (hu : u ≠ []) {b : Char}
    (hb : isSpace b = true) (more : List Char) : Pieced ps (u ++ b :: more) := by
  induction ps with
  | nil => exact .nil
  | cons p ps ih =>
    obtain ⟨hp, hps⟩ := pieced_cons.mp h
    have hextend := hp.extend (List.append_ne_nil_of_right_ne_nil _ hu) hb more
    rw [List.append_assoc] at hextend
    exact .cons hextend (ih hps)

/-! ## All pieces -/

theorem Piece.Reads.ne_nil {k : Piece.Kind} {text left : List Char} (h : Reads k text left) :
    text ≠ [] := by
  obtain ⟨c, a, rfl, -⟩ := h.read
  exact List.cons_ne_nil c a

/-- Reading goes forward. -/
theorem length_read_le (c : Char) (rest : List Char) : (read c rest).2.length ≤ rest.length := by
  generalize hread : read c rest = result
  obtain ⟨p, left⟩ := result
  obtain ⟨hreads, happend⟩ := reads_of_read hread
  have hlength := congrArg List.length happend
  have htext := List.length_pos_iff.mpr hreads.ne_nil
  rw [List.length_append, List.length_cons] at hlength
  show left.length ≤ rest.length
  omega

/-- More fuel than characters changes nothing. -/
theorem readAll_eq_pieces (source : List Char) {fuel : Nat} (h : source.length ≤ fuel) :
    readAll fuel source = pieces source := by
  suffices hany : ∀ m n, source.length ≤ m → source.length ≤ n →
    readAll m source = readAll n source from
    hany fuel source.length h (Nat.le_refl _)
  clear h
  intro m
  induction m generalizing source with
  | zero =>
    intro n hm _
    obtain rfl : source = [] := List.length_eq_zero_iff.mp (Nat.le_zero.mp hm)
    cases n <;> rfl
  | succ m ih =>
    intro n hm hn
    cases source with
    | nil => cases n <;> rfl
    | cons c rest =>
      obtain ⟨n, rfl⟩ : ∃ k, n = k + 1 := ⟨n - 1, by rw [List.length_cons] at hn; omega⟩
      have hlt := length_read_le c rest
      rw [List.length_cons] at hm hn
      exact congrArg ((read c rest).1 :: ·) (ih (read c rest).2 n (by omega) (by omega))

theorem pieces_cons (c : Char) (rest : List Char) :
    pieces (c :: rest) = (read c rest).1 :: pieces (read c rest).2 :=
  congrArg ((read c rest).1 :: ·) (readAll_eq_pieces _ (length_read_le c rest))

theorem pieces_of_reads {k : Piece.Kind} {text left : List Char} (h : Reads k text left) :
    pieces (text ++ left) = ⟨k, text⟩ :: pieces left := by
  obtain ⟨c, a, rfl, hread⟩ := h.read
  rw [List.cons_append, pieces_cons, hread]

/-- Pieces that stand in front of a text are its first pieces. -/
theorem Pieced.pieces_append {ps : List Piece} {behind : List Char} (h : Pieced ps behind) :
    pieces (written ps ++ behind) = ps ++ pieces behind := by
  induction h with
  | nil => rfl
  | @cons p ps behind hp _ ih =>
    rw [written_cons, List.append_assoc, pieces_of_reads hp, ih]
    rfl

theorem Pieced.pieces_eq {ps : List Piece} (h : Pieced ps []) : pieces (written ps) = ps := by
  simpa [pieces, readAll] using h.pieces_append

/-- **A text is its pieces**, one behind the other. -/
theorem pieced_pieces (source : List Char) :
    Pieced (pieces source) [] ∧ written (pieces source) = source := by
  induction hn : source.length using Nat.strongRecOn generalizing source with
  | _ n ih =>
    cases source with
    | nil => exact ⟨.nil, rfl⟩
    | cons c rest =>
      have hlt : (read c rest).2.length < n := by
        have hle := length_read_le c rest
        rw [List.length_cons] at hn
        omega
      rw [pieces_cons]
      generalize hread : read c rest = result at hlt ⊢
      obtain ⟨p, left⟩ := result
      obtain ⟨hreads, happend⟩ := reads_of_read hread
      obtain ⟨hpieced, hwritten⟩ := ih left.length hlt left rfl
      rw [written_cons, hwritten]
      refine ⟨.cons ?_ hpieced, happend⟩
      rwa [hwritten, List.append_nil]

/-- **A part of a text between pieces has the same pieces alone.** -/
theorem pieces_written {source : List Char} {ps qs rs : List Piece}
    (h : pieces source = ps ++ (qs ++ rs)) : pieces (written qs) = qs := by
  have hpieced := (pieced_pieces source).1
  rw [h, pieced_append, pieced_append] at hpieced
  exact (Pieced.cut (u := []) hpieced.2.1).pieces_eq

/-! ## Tokens -/

namespace Lexeme

/-- The token moved to the right. -/
def shift (t : Lexeme) (offset : Nat) : Lexeme := { t with span := t.span.shift offset }

/-- The first piece is a token, or nothing. -/
theorem ofPieces_cons_some {p : Piece} {kind : Kind} (h : ofPiece? p = some kind) (place : Nat)
    (ps : List Piece) : ofPieces place (p :: ps) =
      ⟨kind, p.text, ⟨place, place + Text.byteLength p.text⟩⟩ ::
        ofPieces (place + Text.byteLength p.text) ps := by
  simp only [ofPieces, h]

theorem ofPieces_cons_none {p : Piece} (h : ofPiece? p = none) (place : Nat) (ps : List Piece) :
    ofPieces place (p :: ps) = ofPieces (place + Text.byteLength p.text) ps := by
  simp only [ofPieces, h]

theorem ofPieces_append (place : Nat) (ps qs : List Piece) : ofPieces place (ps ++ qs) =
    ofPieces place ps ++ ofPieces (place + Text.byteLength (written ps)) qs := by
  induction ps generalizing place with
  | nil => rfl
  | cons p ps ih =>
    rw [List.cons_append, written_cons, Text.byteLength_append, ← Nat.add_assoc]
    cases hp : ofPiece? p with
    | none => rw [ofPieces_cons_none hp, ofPieces_cons_none hp, ih]
    | some kind => rw [ofPieces_cons_some hp, ofPieces_cons_some hp, ih, List.cons_append]

/-- The same pieces at another place. -/
theorem ofPieces_add (place offset : Nat) (ps : List Piece) :
    ofPieces (place + offset) ps = (ofPieces place ps).map (·.shift offset) := by
  induction ps generalizing place with
  | nil => rfl
  | cons p ps ih =>
    have hstop :
        place + offset + Text.byteLength p.text = place + Text.byteLength p.text + offset := by
      omega
    cases hp : ofPiece? p with
    | none => rw [ofPieces_cons_none hp, ofPieces_cons_none hp, hstop, ih]
    | some kind =>
      rw [ofPieces_cons_some hp, ofPieces_cons_some hp, hstop, ih]
      simp [shift, Text.Span.shift, Nat.add_right_comm]

/-- The piece of a token. -/
theorem exists_piece {place : Nat} {ps : List Piece} {front back : List Lexeme} {t : Lexeme}
    (h : ofPieces place ps = front ++ t :: back) : ∃ before p after, ps = before ++ p :: after ∧
      ofPieces place before = front ∧ ofPiece? p = some t.kind ∧ t.text = p.text ∧
      t.span.start = place + Text.byteLength (written before) ∧
      t.span.stop = t.span.start + Text.byteLength p.text ∧ ofPieces t.span.stop after = back := by
  induction ps generalizing place front with
  | nil => cases front <;> cases h
  | cons p ps ih =>
    -- a piece in front moves the rest by its length
    have hfurther : ∀ before : List Piece,
        place + Text.byteLength p.text + Text.byteLength (written before) =
          place + Text.byteLength (written (p :: before)) := by
      intro before
      rw [written_cons, Text.byteLength_append, Nat.add_assoc]
    cases hp : ofPiece? p with
    | none =>
      rw [ofPieces_cons_none hp] at h
      obtain ⟨before, q, after, rfl, hfront, hkind, htext, hstart, hstop⟩ := ih h
      refine ⟨p :: before, q, after, rfl, ?_, hkind, htext, hstart.trans (hfurther before), hstop⟩
      rw [ofPieces_cons_none hp, hfront]
    | some kind =>
      rw [ofPieces_cons_some hp] at h
      cases front with
      | nil =>
        obtain ⟨rfl, rfl⟩ := List.cons.inj h
        exact ⟨[], p, ps, rfl, rfl, hp, rfl, rfl, rfl, rfl⟩
      | cons f front =>
        obtain ⟨rfl, hrest⟩ := List.cons.inj h
        obtain ⟨before, q, after, rfl, hfront, hkind, htext, hstart, hstop⟩ := ih hrest
        refine ⟨p :: before, q, after, rfl, ?_, hkind, htext, hstart.trans (hfurther before), hstop⟩
        rw [ofPieces_cons_some hp, hfront]

theorem exists_piece_of_mem {place : Nat} {ps : List Piece} {t : Lexeme}
    (h : t ∈ ofPieces place ps) :
    ∃ p ∈ ps, ofPiece? p = some t.kind ∧ t.text = p.text := by
  obtain ⟨front, back, hsplit⟩ := List.append_of_mem h
  obtain ⟨before, p, after, rfl, -, hkind, htext, -⟩ := exists_piece hsplit
  exact ⟨p, by simp, hkind, htext⟩

/-- In front of a token is a cut between pieces. -/
theorem exists_cut_before {place : Nat} {ps : List Piece} {front back : List Lexeme} {t : Lexeme}
    (h : ofPieces place ps = front ++ t :: back) : ∃ before after, ps = before ++ after ∧
      ofPieces place before = front ∧ t.span.start = place + Text.byteLength (written before) ∧
      ofPieces t.span.start after = t :: back := by
  obtain ⟨before, p, after, rfl, hfront, hkind, htext, hstart, hstop, hback⟩ := exists_piece h
  refine ⟨before, p :: after, rfl, hfront, hstart, ?_⟩
  rw [ofPieces_cons_some hkind, ← hstop, hback, ← htext]

/-- Behind a token is a cut between pieces. -/
theorem exists_cut_behind {place : Nat} {ps : List Piece} {front back : List Lexeme} {t : Lexeme}
    (h : ofPieces place ps = front ++ t :: back) : ∃ before after, ps = before ++ after ∧
      ofPieces place before = front ++ [t] ∧
      t.span.stop = place + Text.byteLength (written before) ∧
      ofPieces t.span.stop after = back := by
  obtain ⟨before, p, after, rfl, hfront, hkind, htext, hstart, hstop, hback⟩ := exists_piece h
  refine ⟨before ++ [p], after, by simp, ?_, ?_, hback⟩
  · rw [ofPieces_append, hfront, ← hstart, ofPieces_cons_some hkind, ← hstop, ← htext]
    rfl
  · simp [Text.byteLength_append, hstop, hstart, Nat.add_assoc]

/-- Tokens stand in order, and none of them is empty. -/
theorem ofPieces_pairwise (place : Nat) {ps : List Piece} (h : ∀ p ∈ ps, p.text ≠ []) :
    (ofPieces place ps).Pairwise (fun s t => s.span.stop ≤ t.span.start) ∧
      ∀ t ∈ ofPieces place ps, place ≤ t.span.start ∧ t.span.start < t.span.stop := by
  induction ps generalizing place with
  | nil => exact ⟨.nil, fun t ht => nomatch ht⟩
  | cons p ps ih =>
    have hp : 0 < Text.byteLength p.text := by
      rw [Nat.pos_iff_ne_zero, Ne, Text.byteLength_eq_zero_iff]
      exact h p List.mem_cons_self
    obtain ⟨hpairs, hplaces⟩ := ih (place + Text.byteLength p.text)
      fun q hq => h q (List.mem_cons_of_mem p hq)
    have hbehind : ∀ t ∈ ofPieces (place + Text.byteLength p.text) ps,
        place ≤ t.span.start ∧ t.span.start < t.span.stop := by
      intro t ht
      obtain ⟨hstart, hstop⟩ := hplaces t ht
      exact ⟨by omega, hstop⟩
    cases hkind : ofPiece? p with
    | none =>
      rw [ofPieces_cons_none hkind]
      exact ⟨hpairs, hbehind⟩
    | some kind =>
      rw [ofPieces_cons_some hkind]
      refine ⟨.cons (fun t ht => (hplaces t ht).1) hpairs, ?_⟩
      intro t ht
      rcases List.mem_cons.mp ht with rfl | ht
      · exact ⟨Nat.le_refl _, by dsimp only; omega⟩
      · exact hbehind t ht

end Lexeme

/-! ## Tokens of a text -/

theorem ne_nil_of_mem_pieces {source : List Char} {p : Piece} (h : p ∈ pieces source) :
    p.text ≠ [] := by
  obtain ⟨left, hreads⟩ := (pieced_pieces source).1.reads h
  exact hreads.ne_nil

/-- What a token is read from, and whether something is left behind it. -/
theorem exists_reads_of_lexeme {source : List Char} {front back : List Lexeme} {t : Lexeme}
    (h : lexemes source = front ++ t :: back) :
    ∃ k left, Reads k t.text left ∧ Lexeme.ofPiece? ⟨k, t.text⟩ = some t.kind ∧
      (back ≠ [] → left ≠ []) := by
  obtain ⟨before, p, after, hpieces, -, hkind, htext, -, -, hback⟩ := Lexeme.exists_piece h
  have hpieced := (pieced_pieces source).1
  simp only [hpieces, pieced_append, pieced_cons, List.append_nil] at hpieced
  rw [htext]
  refine ⟨p.kind, written after, hpieced.2.1, hkind, fun hne => ?_⟩
  cases after with
  | nil => exact absurd hback.symm hne
  | cons q after =>
    have hq : q ∈ pieces source := by
      rw [hpieces]
      simp
    exact List.append_ne_nil_of_left_ne_nil (ne_nil_of_mem_pieces hq) (written after)

/-- **Tokens stand in order**, and none of them is empty. -/
theorem lexemes_pairwise (source : List Char) :
    (lexemes source).Pairwise (fun s t => s.span.stop ≤ t.span.start) ∧
      ∀ t ∈ lexemes source, t.span.start < t.span.stop := by
  obtain ⟨hpairs, hplaces⟩ := Lexeme.ofPieces_pairwise 0 fun p (hp : p ∈ pieces source) =>
    ne_nil_of_mem_pieces hp
  exact ⟨hpairs, fun t ht => (hplaces t ht).2⟩

/-- Tokens in a row, with the pieces that they stand in: from the first of them up to the place
where `stop` is. -/
structure Segment (source : List Char) (tokens : List Lexeme) (span : Text.Span) (ps : List Piece) :
    Prop where
  pieces : pieces (written ps) = ps
  tokens : Lexeme.ofPieces span.start ps = tokens
  slice : Text.slice source span = some (written ps)

/-- Pieces from one cut to another, in front of the rest of the text. -/
theorem segment_of_cut {source : List Char} {before after : List Piece} {front tokens : List Lexeme}
    {s : Lexeme} {stop : Nat} (hpieces : pieces source = before ++ after)
    (hfront : Lexeme.ofPieces 0 before = front ++ s :: tokens)
    (hstop : stop = Text.byteLength (written before)) :
    ∃ ps, Segment source (s :: tokens) ⟨s.span.start, stop⟩ ps ∧ Pieced ps (written after) := by
  obtain ⟨first, ps, rfl, -, hstart, htokens⟩ := Lexeme.exists_cut_before hfront
  rw [Nat.zero_add] at hstart
  rw [List.append_assoc] at hpieces
  obtain ⟨hpieced, hsource⟩ := pieced_pieces source
  rw [hpieces, written_append, written_append] at hsource
  simp only [hpieces, pieced_append, List.append_nil] at hpieced
  refine ⟨ps, ⟨pieces_written hpieces, htokens, ?_⟩, hpieced.2.1⟩
  refine Text.slice_eq_some_iff.mpr ⟨written first, written after, hsource.symm, hstart, ?_⟩
  rw [hstop, written_append, Text.byteLength_append]

/-- From the start of a token to the end of another. -/
theorem exists_segment {source : List Char} {front tokens back : List Lexeme} {s t : Lexeme}
    (h : lexemes source = front ++ (tokens ++ back)) (hs : tokens.head? = some s)
    (ht : tokens.getLast? = some t) :
    ∃ ps, Segment source tokens ⟨s.span.start, t.span.stop⟩ ps := by
  obtain ⟨init, rfl⟩ := List.getLast?_eq_some_iff.mp ht
  have hcut : lexemes source = (front ++ init) ++ t :: back := by
    rw [h]
    simp
  obtain ⟨before, after, hpieces, hfront, hstop, -⟩ := Lexeme.exists_cut_behind hcut
  obtain ⟨mid, hmid⟩ := List.head?_eq_some_iff.mp hs
  rw [List.append_assoc, hmid] at hfront
  rw [hmid]
  obtain ⟨ps, hsegment, -⟩ := segment_of_cut hpieces hfront (hstop.trans (Nat.zero_add _))
  exact ⟨ps, hsegment⟩

/-- From the start of a token to the start of another, which is left behind them. -/
theorem exists_segment_before {source : List Char} {front tokens back : List Lexeme} {s t : Lexeme}
    (h : lexemes source = front ++ (tokens ++ t :: back)) (hs : tokens.head? = some s) :
    ∃ ps left, Segment source tokens ⟨s.span.start, t.span.start⟩ ps ∧ left ≠ [] ∧
      Pieced ps left := by
  obtain ⟨mid, rfl⟩ := List.head?_eq_some_iff.mp hs
  have hcut : lexemes source = (front ++ s :: mid) ++ t :: back := by
    rw [h]
    simp
  obtain ⟨before, p, after, hpieces, hfront, -, -, hstart, -⟩ := Lexeme.exists_piece hcut
  obtain ⟨ps, hsegment, hpieced⟩ := segment_of_cut hpieces hfront (hstart.trans (Nat.zero_add _))
  refine ⟨ps, written (p :: after), hsegment, ?_, hpieced⟩
  have hp : p ∈ pieces source := by
    rw [hpieces]
    simp
  exact List.append_ne_nil_of_left_ne_nil (ne_nil_of_mem_pieces hp) (written after)

/-- Tokens are cut out with their texts. -/
theorem slice_of_mem_lexemes {source : List Char} {t : Lexeme} (h : t ∈ lexemes source) :
    Text.slice source t.span = some t.text := by
  obtain ⟨front, back, hsplit⟩ := List.append_of_mem h
  obtain ⟨before, p, after, hpieces, -, -, htext, hstart, hstop, -⟩ := Lexeme.exists_piece hsplit
  have hsource := (pieced_pieces source).2
  rw [hpieces, written_append, written_cons, ← htext] at hsource
  rw [Nat.zero_add] at hstart
  refine Text.slice_eq_some_iff.mpr ⟨written before, written after, hsource.symm, hstart, ?_⟩
  rw [hstop, hstart, htext]

end LiveDoc.Item
