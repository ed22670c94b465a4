import LiveDoc.Proofs.Item.Heading
import LiveDoc.Proofs.Item.Placement
import LiveDoc.Proofs.Item.Rescan
import LiveDoc.Proofs.Item.Trimming

/-!
# The text of a header

The text in front of the body of an item, trimmed at its end, reads as the header of this item
wherever it stands (`HeaderText`). With a brace behind it and something that opens nothing more, it
is an item with this brace as its body in one case only: it does not end with a line comment, and
leaves nothing open (`HeaderText.scan_open`, `HeaderText.scan_bodyless`).
-/

namespace LiveDoc.Item

open Piece (Reads)
open Text (trimEnd)

/-! ## Tokens of a source text -/

/-- How opening brackets are written. -/
def openings : List (List Char) := [['('], ['['], ['{']]

theorem mem_openings_of_mark {c : Char} (h : Piece.markKind c = .open) : [c] ∈ openings := by
  by_cases hc : (c = '{' || c = '(' || c = '[') = true
  · simp only [Bool.or_eq_true, decide_eq_true_eq] at hc
    rcases hc with (rfl | rfl) | rfl <;> decide
  · rw [Piece.markKind, if_neg hc] at h
    repeat' split at h
    all_goals cases h

theorem mem_openings {source : List Char} {t : Lexeme} (ht : t ∈ lexemes source)
    (hopen : t.kind = .open) : t.text ∈ openings := by
  obtain ⟨front, back, hsplit⟩ := List.append_of_mem ht
  obtain ⟨k, left, hreads, hkind, -⟩ := exists_reads_of_lexeme hsplit
  have hk : k = .open := by
    rcases ofPiece?_cases hkind with ⟨-, -, hdoc⟩ | ⟨-, -, hother⟩
    · rw [hopen] at hdoc
      rcases hdoc with hdoc | hdoc <;> cases hdoc
    · exact hother hopen
  generalize t.text = text at hreads ⊢
  cases hreads with
  | mark => exact mem_openings_of_mark hk
  | delimited ho => cases ho <;> cases hk
  | _ => cases hk

/-- Brackets are single characters. -/
theorem length_of_open {source : List Char} {t : Lexeme} (ht : t ∈ lexemes source)
    (hopen : t.kind = .open) : t.text.length = 1 := by
  have hall : ∀ text ∈ openings, text.length = 1 := by decide
  exact hall _ (mem_openings ht hopen)

/-- What trimming takes away means nothing to a header. -/
theorem mem_idleKinds_of_trimmed {p : Piece} (h : p.kind ∈ trimmedKinds) {kind : Lexeme.Kind}
    (hkind : Lexeme.ofPiece? p = some kind) : kind ∈ idleKinds := by
  simp only [trimmedKinds, List.mem_cons, List.not_mem_nil, or_false] at h
  rcases h with h | h | h
  · simp [Lexeme.ofPiece?, h] at hkind
  · obtain rfl : Lexeme.Kind.other = kind := by simpa [Lexeme.ofPiece?, h] using hkind
    decide
  · have hcomment : Lexeme.ofComment? p.text = some kind := by
      simpa [Lexeme.ofPiece?, h] using hkind
    rcases ofComment?_kind hcomment with rfl | rfl <;> decide

/-- Nor is it a keyword. -/
theorem ofKeyword?_of_trimmed {k : Piece.Kind} {text left : List Char} (h : Reads k text left)
    (hk : k ∈ trimmedKinds) : Kind.ofKeyword? text = none := by
  cases hkeyword : Kind.ofKeyword? text with
  | none => rfl
  | some kind =>
    exfalso
    obtain ⟨hlong, hfirst⟩ := ofKeyword?_shape hkeyword
    cases h with
    | blank hc =>
      have hspace := (Piece.of_isWordStart (hfirst _ rfl)).2.1
      rw [hc] at hspace
      cases hspace
    | lineComment => exact absurd (hfirst '/' rfl) (by decide)
    | delimited ho => cases ho <;> exact absurd hk (by decide)
    | mark => exact absurd hlong (by simp)
    | _ => exact absurd hk (by decide)

/-! ## Headers in a source text -/

/-- The trimmed text of a header, with the pieces and tokens in it. -/
structure HeaderText (i : Item) (header : List Char) (init : List Piece) (front mods : List Lexeme)
    (k : Lexeme) (after : List Lexeme) : Prop where
  trimmed : Trimmed init header
  tokens : Lexeme.ofPieces i.span.start init = front ++ (mods ++ k :: after)
  heads : Heads i.kind front mods k after
  start : i.span.start = startAt k (front ++ mods)
  name : after ≠ [] → i.name = nameAt? after

/-- What goes at the end of a header goes behind its keyword. -/
theorem exists_trimmed_behind {a idle before after : List Lexeme} {k : Lexeme}
    (h : a ++ idle = before ++ k :: after) (hk : k ∉ idle) :
    ∃ rest, after = rest ++ idle ∧ a = before ++ k :: rest := by
  have hsplit : a ++ idle = (before ++ [k]) ++ after := by rw [h]; simp
  rcases List.append_eq_append_iff.mp hsplit with ⟨mid, hmid, rfl⟩ | ⟨rest, rfl, rfl⟩
  · rcases List.eq_nil_or_concat mid with rfl | ⟨mid, l, rfl⟩
    · exact ⟨[], rfl, by rw [List.append_nil] at hmid; rw [← hmid]⟩
    · rw [List.concat_eq_append, ← List.append_assoc] at hmid
      obtain ⟨-, hl⟩ := List.append_inj' hmid rfl
      obtain rfl := List.singleton_inj.mp hl
      exact absurd (by simp) hk
  · exact ⟨rest, rfl, by simp⟩

theorem fits_of_append {after idle : List Lexeme} (h : Fits (after ++ idle)) (hne : after ≠ [])
    (hidle : ∀ t ∈ idle, t.kind ∈ idleKinds) : Fits after := by
  obtain ⟨n, a, rfl⟩ := List.exists_cons_of_ne_nil hne
  have hclosed : (a ++ idle).foldl openBehind (0, 0) = (0, 0) := h.2
  rw [List.foldl_append, foldl_openBehind_of_idle hidle] at hclosed
  exact ⟨hne, hclosed⟩

/-- **What is left of the tokens** of a text when it is trimmed: a keyword among them stays. -/
theorem exists_trimmed_tokens {ps : List Piece} {left : List Char} {place : Nat}
    {before behind : List Lexeme} {k : Lexeme} (hpieced : Pieced ps left) (hleft : left ≠ [])
    (htokens : Lexeme.ofPieces place ps = before ++ k :: behind)
    (hkeyword : Kind.ofKeyword? k.text ≠ none) :
    ∃ init after idle, Trimmed init (trimEnd (written ps)) ∧ behind = after ++ idle ∧
      (∀ t ∈ idle, t.kind ∈ idleKinds) ∧ Lexeme.ofPieces place init = before ++ k :: after := by
  obtain ⟨init, dropped, rfl, hdropped, htrimmed⟩ := exists_trimmed hpieced hleft
  rw [Lexeme.ofPieces_append] at htokens
  generalize hidle :
    Lexeme.ofPieces (place + Text.byteLength (written init)) dropped = idle at htokens
  have hk : k ∉ idle := by
    intro hk
    rw [← hidle] at hk
    obtain ⟨p, hp, -, htext⟩ := Lexeme.exists_piece_of_mem hk
    obtain ⟨left, hreads⟩ := hpieced.reads (List.mem_append_right init hp)
    rw [htext] at hkeyword
    exact hkeyword (ofKeyword?_of_trimmed hreads (hdropped p hp))
  obtain ⟨after, rfl, hinit⟩ := exists_trimmed_behind htokens hk
  refine ⟨init, after, idle, htrimmed, rfl, fun t ht => ?_, hinit⟩
  rw [← hidle] at ht
  obtain ⟨p, hp, hkind, -⟩ := Lexeme.exists_piece_of_mem ht
  exact mem_idleKinds_of_trimmed (hdropped p hp) hkind

/-- No name stands in front of a brace without a token that means something. -/
theorem nameAt?_of_idle {idle inner : List Lexeme} {o : Lexeme} (ho : o.kind = .open)
    (hidle : ∀ t ∈ idle, t.kind ∈ idleKinds) : nameAt? (idle ++ o :: inner) = none := by
  have hword : kindAt (idle ++ o :: inner) ≠ some .word := by
    intro hword
    cases idle with
    | nil =>
      have hkind : o.kind = .word := Option.some.inj hword
      rw [ho] at hkind
      cases hkind
    | cons t idle =>
      have hkind : t.kind = .word := Option.some.inj hword
      have hmem := hidle t List.mem_cons_self
      rw [hkind] at hmem
      exact absurd hmem (by decide)
  rw [nameAt?, if_neg hword]

/-- The pieces in front of a body. -/
theorem Headed.exists_pieces {source : List Char}
    {own front back waiting mods behind inner : List Lexeme} {i : Item} {k o : Lexeme}
    {b : Text.Span} (h : Headed own i waiting mods k behind o inner)
    (hsource : lexemes source = front ++ (own ++ back)) (hb : i.body = some b) :
    ∃ ps left, cut source ⟨i.span.start, b.start⟩ = written ps ∧
      Lexeme.ofPieces i.span.start ps = waiting ++ (mods ++ k :: behind) ∧ left ≠ [] ∧
      Pieced ps left := by
  have hcut : lexemes source =
      front ++ (waiting ++ (mods ++ k :: behind) ++ o :: (inner ++ back)) := by
    rw [hsource, h.tokens]
    simp
  obtain ⟨s, hs, hstart⟩ : ∃ s, (waiting ++ (mods ++ k :: behind)).head? = some s ∧
      s.span.start = startAt k (waiting ++ mods) := by
    cases waiting with
    | cons w waiting => exact ⟨w, rfl, rfl⟩
    | nil =>
      cases mods with
      | cons m mods => exact ⟨m, rfl, rfl⟩
      | nil => exact ⟨k, rfl, rfl⟩
  obtain ⟨ps, left, hsegment, hleft, hpieced⟩ := exists_segment_before hcut hs
  rw [hstart, ← h.start, ← h.body b hb] at hsegment
  refine ⟨ps, left, ?_, hsegment.tokens, hleft, hpieced⟩
  rw [cut, hsegment.slice]
  rfl

/-- **The header of an item with a body.** If the item has a name and something stands behind the
opening of its body, its header leaves nothing open. -/
theorem exists_headerText {source : List Char} {front back own : List Lexeme} {i : Item}
    {b : Text.Span} (howns : Owns own i) (hsource : lexemes source = front ++ (own ++ back))
    (hkind : i.kind.hasStrippableBody = true) (hb : i.body = some b) :
    ∃ init waiting mods k after header o inner, own = header ++ o :: inner ∧ o.kind = .open ∧
      HeaderText i (trimEnd (cut source ⟨i.span.start, b.start⟩)) init waiting mods k after ∧
      i.innerDocs = (inner.takeWhile (·.kind = .innerDoc)).map (·.span) ∧
      (i.name.isSome → inner ≠ [] → Fits after) := by
  have hlengths : ∀ t ∈ own, t.kind = .open → t.text.length = 1 := by
    intro t ht
    have hmem : t ∈ lexemes source := by
      rw [hsource]
      exact List.mem_append_right front (List.mem_append_left back ht)
    exact length_of_open hmem
  obtain ⟨waiting, mods, k, behind, o, inner, h⟩ :=
    howns.exists_headed hlengths hkind (by rw [hb]; rfl)
  obtain ⟨ps, left, hheader, htokens, hleft, hpieced⟩ := h.exists_pieces hsource hb
  rw [← List.append_assoc] at htokens
  have hkeyword : Kind.ofKeyword? k.text ≠ none := by
    rw [h.heads.text]
    exact nofun
  obtain ⟨init, after, idle, htrimmed, rfl, hidle, hinit⟩ :=
    exists_trimmed_tokens hpieced hleft htokens hkeyword
  rw [hheader]
  refine ⟨init, waiting, mods, k, after, waiting ++ (mods ++ k :: (after ++ idle)), o, inner, ?_,
    h.opening, ⟨htrimmed, ?_, h.heads.trim hidle, h.start, ?_⟩, h.docs, ?_⟩
  · rw [h.tokens]
    simp
  · rw [hinit, List.append_assoc]
  · intro hne
    obtain ⟨n, a, rfl⟩ := List.exists_cons_of_ne_nil hne
    exact h.name
  · intro hname hinner
    have hne : after ≠ [] := by
      rintro rfl
      rw [h.name, List.nil_append, nameAt?_of_idle h.opening hidle] at hname
      cases hname
    exact fits_of_append (h.fits (List.append_ne_nil_of_left_ne_nil hne idle) hinner) hne hidle

/-! ## A header with a body behind it -/

/-- Pieces that can stand behind a brace: they start with a line feed, and are nothing to a header
but for the last token, which opens nothing either. -/
structure BodyPieces (tail : List Piece) : Prop where
  pieced : Pieced tail []
  lineFeed : (written tail).head? = some '\n'
  tokens : ∃ inner c, Lexeme.ofPieces 0 tail = inner ++ [c] ∧
    (∀ t ∈ inner, t.kind ∈ idleKinds) ∧ c.kind ∈ quietKinds

theorem BodyPieces.tokens_at {tail : List Piece} (h : BodyPieces tail) (place : Nat) :
    ∃ inner c, Lexeme.ofPieces place tail = inner ++ [c] ∧ (∀ t ∈ inner, t.kind ∈ idleKinds) ∧
      c.kind ∈ quietKinds := by
  obtain ⟨inner, c, htokens, hinner, hc⟩ := h.tokens
  refine ⟨inner.map (·.shift place), c.shift place, ?_, fun t ht => ?_, hc⟩
  · rw [← Nat.zero_add place, Lexeme.ofPieces_add, htokens, Nat.zero_add, List.map_append]
    rfl
  · obtain ⟨s, hs, rfl⟩ := List.mem_map.mp ht
    exact hinner s hs

theorem BodyPieces.quiet {tail : List Piece} (h : BodyPieces tail) (place : Nat) :
    Lexeme.ofPieces place tail ≠ [] ∧ ∀ t ∈ Lexeme.ofPieces place tail, t.kind ∈ quietKinds := by
  obtain ⟨inner, c, htokens, hinner, hc⟩ := h.tokens_at place
  rw [htokens]
  refine ⟨List.append_ne_nil_of_right_ne_nil inner (List.cons_ne_nil c []), fun t ht => ?_⟩
  rcases List.mem_append.mp ht with ht | ht
  · exact List.mem_cons_of_mem _ (hinner t ht)
  · rwa [List.mem_singleton.mp ht]

theorem shift_injective (offset : Nat) {i j : Item} (h : i.shift offset = j.shift offset) :
    i = j := by
  have hspan : ∀ s t : Text.Span, s.shift offset = t.shift offset → s = t := by
    intro s t hst
    have hstart := congrArg Text.Span.start hst
    have hstop := congrArg Text.Span.stop hst
    exact congrArg₂ Text.Span.mk (Nat.add_right_cancel hstart) (Nat.add_right_cancel hstop)
  obtain ⟨kind, name, span, body, docs⟩ := i
  obtain ⟨kind', name', span', body', docs'⟩ := j
  obtain ⟨rfl, rfl, hs, hb, hd⟩ := Item.mk.inj h
  obtain rfl := hspan _ _ hs
  obtain rfl := Option.map_injective (fun s t => hspan s t) hb
  obtain rfl := List.map_injective_iff.mpr (fun s t => hspan s t) hd
  rfl

theorem ofPieces_brace (place : Nat) (tail : List Piece) :
    Lexeme.ofPieces place (⟨.blank, [' ']⟩ :: ⟨.open, ['{']⟩ :: tail) =
      ⟨.open, ['{'], ⟨place + 1, place + 2⟩⟩ :: Lexeme.ofPieces (place + 2) tail := rfl

section Behind

variable {i : Item} {header : List Char} {init tail : List Piece} {front mods after : List Lexeme}
  {k : Lexeme} (h : HeaderText i header init front mods k after) (htail : BodyPieces tail)

include h htail

/-- **A brace behind a header is its body** if the header leaves nothing open and does not end with
a line comment. -/
theorem HeaderText.scan_open (hline : ∀ p ∈ (pieces header).getLast?, p.kind ≠ .lineComment)
    (hfits : Fits after) :
    ∃ before last, lexemes (header ++ ' ' :: '{' :: written tail) =
        before ++ Lexeme.ofPieces (Text.byteLength header + 2) tail ∧
      (Lexeme.ofPieces (Text.byteLength header + 2) tail).getLast? = some last ∧
      scan (header ++ ' ' :: '{' :: written tail) =
        [⟨i.kind, i.name, ⟨0, last.span.stop⟩, some ⟨Text.byteLength header + 1, last.span.stop⟩,
          ((Lexeme.ofPieces (Text.byteLength header + 2) tail).takeWhile (·.kind = .innerDoc)).map
            (·.span)⟩] := by
  obtain ⟨-, hheader, hpieces⟩ | ⟨⟨p, hp, hcomment⟩, -⟩ :=
    h.trimmed.pieces_brace htail.pieced htail.lineFeed
  · subst hheader
    obtain ⟨inner, c, htokens, hinner, -⟩ := htail.tokens_at (Text.byteLength (written init) + 2)
    have hlexemes : lexemes (written init ++ ' ' :: '{' :: written tail) =
        Lexeme.ofPieces 0 init ++ [⟨.open, ['{'],
          ⟨Text.byteLength (written init) + 1, Text.byteLength (written init) + 2⟩⟩] ++
            (inner ++ [c]) := by
      rw [lexemes, hpieces, Lexeme.ofPieces_append, ofPieces_brace, Nat.zero_add, htokens]
      simp
    rw [htokens]
    refine ⟨_, c, hlexemes, List.getLast?_concat, ?_⟩
    -- all of it stands further to the right in the text of the item
    have hplace : i.span.start + Text.byteLength (written init) + 2 =
        Text.byteLength (written init) + 2 + i.span.start := by omega
    have hitems :=
      scanLexemes_ofPieces i.span.start (pieces (written init ++ ' ' :: '{' :: written tail))
    have hmoved : ∀ t ∈ inner.map (·.shift i.span.start), t.kind ∈ idleKinds := by
      intro t ht
      obtain ⟨s, hs, rfl⟩ := List.mem_map.mp ht
      exact hinner s hs
    rw [hpieces, Lexeme.ofPieces_append, ofPieces_brace, h.tokens, hplace, Lexeme.ofPieces_add,
      htokens, List.map_append, List.append_assoc, List.append_assoc, List.cons_append,
      List.map_singleton, h.heads.scan_fit hfits rfl rfl hmoved, ← hpieces] at hitems
    obtain ⟨j, hj, hshift⟩ := List.map_eq_singleton_iff.mp hitems.symm
    refine hj.trans (congrArg (fun j => [j]) (shift_injective i.span.start ?_))
    have hdocs : ((inner.map (·.shift i.span.start) ++ [c.shift i.span.start]).takeWhile
        (·.kind = .innerDoc)).map (·.span) =
          (((inner ++ [c]).takeWhile (·.kind = .innerDoc)).map (·.span)).map
            (·.shift i.span.start) := by
      rw [← List.map_singleton (f := fun t : Lexeme => t.shift i.span.start), ← List.map_append,
        List.takeWhile_map, List.map_map, List.map_map]
      rfl
    have hopen : i.span.start + Text.byteLength (written init) + 1 =
        Text.byteLength (written init) + 1 + i.span.start := by omega
    rw [hshift, ← h.start, ← h.name hfits.1, hdocs, hopen, Item.shift]
    simp only [Text.Span.shift, Nat.zero_add, Option.map_some]
    rfl
  · exact absurd hcomment (hline p hp)

/-- **Otherwise there is no body.** -/
theorem HeaderText.scan_bodyless
    (hno : ¬ ((∀ p ∈ (pieces header).getLast?, p.kind ≠ .lineComment) ∧ Fits after)) :
    ∃ j more, scan (header ++ ' ' :: '{' :: written tail) = j :: more ∧ j.body = none := by
  -- the item at its own place has no body
  suffices hmoved : ∃ j more, scanLexemes (Lexeme.ofPieces i.span.start
      (pieces (header ++ ' ' :: '{' :: written tail))) = j :: more ∧ j.body = none by
    obtain ⟨j, more, hj, hbody⟩ := hmoved
    rw [scanLexemes_ofPieces] at hj
    obtain ⟨j, more, hscan, rfl, -⟩ := List.map_eq_cons_iff.mp hj
    exact ⟨j, more, hscan, Option.map_eq_none_iff.mp hbody⟩
  obtain ⟨hline, rfl, hpieces⟩ | ⟨-, comment, hpieces⟩ :=
    h.trimmed.pieces_brace htail.pieced htail.lineFeed
  · have hfits : ¬ Fits after := fun hfits => hno ⟨hline, hfits⟩
    obtain ⟨hne, hquiet⟩ := htail.quiet (i.span.start + Text.byteLength (written init) + 2)
    rw [hpieces, Lexeme.ofPieces_append, ofPieces_brace, h.tokens, List.append_assoc,
      List.append_assoc, List.cons_append]
    exact h.heads.scan_unfit hfits rfl hne hquiet
  · obtain ⟨hne, hquiet⟩ := htail.quiet (i.span.start + Text.byteLength (written init) +
      Text.byteLength comment)
    rw [hpieces, Lexeme.ofPieces_append, h.tokens, List.append_assoc, List.append_assoc,
      List.cons_append]
    cases hcomment : Lexeme.ofPiece? ⟨.lineComment, comment⟩ with
    | none =>
      rw [Lexeme.ofPieces_cons_none hcomment]
      exact h.heads.scan_quiet hne hquiet
    | some kind =>
      rw [Lexeme.ofPieces_cons_some hcomment]
      refine h.heads.scan_quiet (List.cons_ne_nil _ _) fun t ht => ?_
      rcases List.mem_cons.mp ht with rfl | ht
      · exact List.mem_cons_of_mem _ (mem_idleKinds_of_trimmed (by simp [trimmedKinds]) hcomment)
      · exact hquiet t ht

end Behind

end LiveDoc.Item
