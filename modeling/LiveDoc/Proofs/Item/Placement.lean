import LiveDoc.Item.Source
import LiveDoc.Proofs.Item.Cutting
import LiveDoc.Proofs.Item.Walk

/-!
# Where items stand

Whatever a text looks like, the scanner comes to its end, and what it finds stands in the text in
order: the spans of items can be cut out and do not overlap, a body is the end of its item, and its
doc comments stand in it (`scan_placement`). All of this is read off the tokens of each item, which
are in order.
-/

namespace LiveDoc.Item

/-! ## Tokens of a text -/

/-- Only the brace is written like a brace. -/
theorem Piece.Reads.kind_of_brace {k : Piece.Kind} {left : List Char}
    (h : Piece.Reads k ['{'] left) : k = .open := by
  generalize htext : ['{'] = text at h
  cases h with
  | blank hc | word hc | number hc =>
    obtain ⟨rfl, -⟩ := List.cons.inj htext
    cases hc
  | mark hc =>
    obtain ⟨rfl, -⟩ := List.cons.inj htext
    rfl
  | arrow hc =>
    obtain ⟨rfl, -⟩ := List.cons.inj htext
    rcases hc with hc | hc <;> cases hc
  | lineComment => cases htext
  | rawWord => cases htext
  | delimited ho =>
    exfalso
    cases ho with
    | blockComment => cases htext
    | string hp | quote hp | rawString hp =>
      simp only [List.mem_cons, List.not_mem_nil, or_false] at hp
      rcases hp with rfl | rfl | rfl
      all_goals cases htext

theorem bracesOpen_lexemes (source : List Char) : BracesOpen (lexemes source) := by
  intro t ht htext
  obtain ⟨front, back, hsplit⟩ := List.append_of_mem ht
  obtain ⟨k, left, hreads, hkind, -⟩ := exists_reads_of_lexeme hsplit
  rw [htext] at hreads
  simp only [Lexeme.ofPiece?, hreads.kind_of_brace] at hkind
  exact (Option.some.inj hkind).symm

/-- **The items of a text have their own tokens, in order.** -/
theorem segmented_scan (source : List Char) : Segmented (lexemes source) (scan source) := by
  unfold scan
  cases hlast : (lexemes source).getLast? with
  | none =>
    rw [scanLexemes, hlast]
    exact .done
  | some last =>
    rw [scanLexemes_eq_walk hlast]
    have hsegments : Segmented ([] ++ lexemes source) _ := segmented_walk
      (fun t _ => waits_nil t) (bracesOpen_lexemes source) fun _ => hlast
    exact hsegments

/-! ## Places -/

/-- Where the parts of an item stand in a text. A span that can be cut out lies in the text, and its
ends are between characters. -/
structure WellPlaced (source : List Char) (i : Item) : Prop where
  span : ∃ text, Text.slice source i.span = some text ∧ text ≠ []
  body : ∀ b ∈ i.body, i.span.start < b.start ∧ b.start < b.stop ∧ b.stop = i.span.stop ∧
    (Text.slice source b).isSome ∧ (Text.slice source ⟨i.span.start, b.start⟩).isSome
  docs : ∀ d ∈ i.innerDocs, (Text.slice source d).isSome ∧
    ∃ b ∈ i.body, b.start < d.start ∧ d.start < d.stop ∧ d.stop ≤ b.stop
  docs_pairwise : i.innerDocs.Pairwise fun d e => d.stop ≤ e.start

/-- What the tokens of an item look like in the text. -/
structure Placed (ts : List Lexeme) : Prop where
  pairwise : ts.Pairwise fun s t => s.span.stop ≤ t.span.start
  nonempty : ∀ t ∈ ts, t.span.start < t.span.stop

theorem Placed.of_sublist {ss ts : List Lexeme} (h : Placed ts) (hs : ss.Sublist ts) : Placed ss :=
  ⟨h.pairwise.sublist hs, fun t ht => h.nonempty t (hs.subset ht)⟩

/-- No two tokens end in one place. -/
theorem Placed.eq_of_stop {ts : List Lexeme} (h : Placed ts) {s t : Lexeme} (hs : s ∈ ts)
    (ht : t ∈ ts) (hstop : s.span.stop = t.span.stop) : s = t := by
  have hsize := h.nonempty s hs
  have htsize := h.nonempty t ht
  obtain ⟨before, after, rfl⟩ := List.append_of_mem hs
  obtain ⟨-, hafter, hbefore⟩ := List.pairwise_append.mp h.pairwise
  rcases List.mem_append.mp ht with hmem | hmem
  · have hplace := hbefore t hmem s List.mem_cons_self
    omega
  · rcases List.mem_cons.mp hmem with rfl | hmem
    · rfl
    · have hplace := (List.pairwise_cons.mp hafter).1 t hmem
      omega

/-- No token ends behind the last. -/
theorem Placed.stop_le {ts : List Lexeme} (h : Placed ts) {t last : Lexeme} (ht : t ∈ ts)
    (hlast : ts.getLast? = some last) : t.span.stop ≤ last.span.stop := by
  obtain ⟨init, rfl⟩ := List.getLast?_eq_some_iff.mp hlast
  rcases List.mem_append.mp ht with ht | ht
  · have hle := (List.pairwise_append.mp h.pairwise).2.2 t ht last List.mem_cons_self
    have hlt := h.nonempty last (List.mem_append_right init List.mem_cons_self)
    omega
  · rw [List.mem_singleton.mp ht]

/-- What stands behind a token. -/
theorem Placed.behind {header inner : List Lexeme} {o last : Lexeme}
    (h : Placed (header ++ o :: inner)) (hlast : (header ++ o :: inner).getLast? = some last)
    {t : Lexeme} (ht : t ∈ inner) :
    o.span.start < t.span.start ∧ t.span.start < t.span.stop ∧ t.span.stop ≤ last.span.stop := by
  have hmem : t ∈ header ++ o :: inner := List.mem_append_right header (List.mem_cons_of_mem o ht)
  have hplace := (List.pairwise_cons.mp (List.pairwise_append.mp h.pairwise).2.1).1 t ht
  have hopen := h.nonempty o (List.mem_append_right header List.mem_cons_self)
  exact ⟨by omega, h.nonempty t hmem, h.stop_le hmem hlast⟩

theorem placed_lexemes (source : List Char) : Placed (lexemes source) :=
  ⟨(lexemes_pairwise source).1, (lexemes_pairwise source).2⟩

/-- Text stands where a token does. -/
theorem Segment.ne_nil {source : List Char} {tokens : List Lexeme} {span : Text.Span}
    {ps : List Piece} (h : Segment source tokens span ps) (htokens : tokens ≠ []) :
    written ps ≠ [] := by
  intro hnil
  have hps := h.pieces
  rw [hnil] at hps
  have htokens' := h.tokens
  rw [← hps] at htokens'
  exact htokens htokens'.symm

/-- The parts of an item with a body. -/
theorem wellPlaced_of_body {source : List Char} {front header inner back : List Lexeme}
    {first o last : Lexeme} {i : Item}
    (hsource : lexemes source = front ++ (header ++ o :: inner ++ back))
    (hfirst : (header ++ o :: inner).head? = some first)
    (hlast : (header ++ o :: inner).getLast? = some last) (hheader : header ≠ [])
    (hspan : i.span = ⟨first.span.start, last.span.stop⟩)
    (hbody : i.body = some ⟨o.span.start, last.span.stop⟩)
    (hdocs : i.innerDocs = (inner.takeWhile (·.kind = .innerDoc)).map (·.span)) :
    WellPlaced source i := by
  have hall : Placed (header ++ o :: inner) := by
    refine (placed_lexemes source).of_sublist ?_
    rw [hsource]
    exact (List.sublist_append_left _ back).trans (List.sublist_append_right front _)
  obtain ⟨whole, hwhole⟩ := exists_segment hsource hfirst hlast
  rw [← hspan] at hwhole
  have hlastBody : (o :: inner).getLast? = some last := by
    rwa [List.getLast?_append_of_ne_nil _ (List.cons_ne_nil o inner)] at hlast
  have hfirstHeader : header.head? = some first := by
    rwa [List.head?_append_of_ne_nil _ hheader] at hfirst
  have hcutBody : lexemes source = (front ++ header) ++ ((o :: inner) ++ back) := by
    rw [hsource]
    simp
  have hcutHeader : lexemes source = front ++ (header ++ o :: (inner ++ back)) := by
    rw [hsource]
    simp
  obtain ⟨body, hbodyText⟩ := exists_segment hcutBody rfl hlastBody
  obtain ⟨head, -, hheadText, -, -⟩ := exists_segment_before hcutHeader hfirstHeader
  have hstart : first.span.start < o.span.start := by
    have hmem := List.mem_of_head? hfirstHeader
    have hle := (List.pairwise_append.mp hall.pairwise).2.2 first hmem o List.mem_cons_self
    have hlt := hall.nonempty first (List.mem_append_left _ hmem)
    omega
  have hopening : o.span.start < last.span.stop := by
    have hmem : o ∈ header ++ o :: inner := List.mem_append_right header List.mem_cons_self
    have hlt := hall.nonempty o hmem
    have hle := hall.stop_le hmem hlast
    omega
  refine ⟨⟨_, hwhole.slice, hwhole.ne_nil (by simp)⟩, ?_, ?_, ?_⟩
  · intro b hb
    rw [hbody] at hb
    obtain rfl := Option.some.inj hb
    refine ⟨by rw [hspan]; exact hstart, hopening, by rw [hspan], ?_, ?_⟩
    · exact Option.isSome_iff_exists.mpr ⟨_, hbodyText.slice⟩
    · rw [hspan]
      exact Option.isSome_iff_exists.mpr ⟨_, hheadText.slice⟩
  · intro d hd
    rw [hdocs] at hd
    obtain ⟨t, ht, rfl⟩ := List.mem_map.mp hd
    have hmem : t ∈ inner := (List.takeWhile_prefix _).subset ht
    have hlexeme : t ∈ lexemes source := by
      rw [hcutBody]
      exact List.mem_append_right _ (List.mem_append_left back (List.mem_cons_of_mem o hmem))
    exact ⟨Option.isSome_iff_exists.mpr ⟨_, slice_of_mem_lexemes hlexeme⟩, _, hbody,
      hall.behind hlast hmem⟩
  · rw [hdocs]
    refine (List.Pairwise.sublist (List.takeWhile_sublist _) ?_).map _ fun s t h => h
    exact (List.pairwise_cons.mp (List.pairwise_append.mp hall.pairwise).2.1).2

/-- **An item stands where its tokens stand.** -/
theorem Owns.wellPlaced {source : List Char} {front own back : List Lexeme} {i : Item}
    (h : Owns own i) (hsource : lexemes source = front ++ (own ++ back)) : WellPlaced source i := by
  obtain ⟨first, last, hfirst, hlast, hspan, hbody⟩ := h.spans
  rcases hbody with ⟨hnone, hdocs⟩ | ⟨header, o, inner, rfl, hheader, -, hsome, hdocs⟩
  · obtain ⟨ps, hps⟩ := exists_segment hsource hfirst hlast
    have hne : own ≠ [] := by
      rintro rfl
      cases hfirst
    rw [← hspan] at hps
    refine ⟨⟨_, hps.slice, hps.ne_nil hne⟩, ?_, ?_, ?_⟩
    · rw [hnone]
      exact nofun
    · rw [hdocs]
      exact nofun
    · rw [hdocs]
      exact .nil
  · exact wellPlaced_of_body hsource hfirst hlast hheader hspan hsome hdocs

/-- Items stand in the order of their tokens. -/
theorem Segmented.placed {source : List Char} {front ts : List Lexeme} {items : List Item}
    (h : Segmented ts items) (hsource : lexemes source = front ++ ts) :
    (∀ i ∈ items, WellPlaced source i ∧ ∃ t ∈ ts, i.span.start = t.span.start) ∧
      items.Pairwise fun i j => i.span.stop ≤ j.span.start := by
  induction h generalizing front with
  | done => exact ⟨nofun, .nil⟩
  | @item gap own rest i items howns _ ih =>
    have hsplit : lexemes source = (front ++ gap) ++ (own ++ rest) := by
      rw [hsource, List.append_assoc]
    obtain ⟨first, last, hfirst, hlast, hspan, -⟩ := howns.spans
    have hrest : lexemes source = (front ++ gap ++ own) ++ rest := by
      rw [hsplit]
      simp
    obtain ⟨hitems, hpairs⟩ := ih hrest
    have hpairwise := (placed_lexemes source).pairwise
    rw [hsplit] at hpairwise
    have hbehind := (List.pairwise_append.mp (List.pairwise_append.mp hpairwise).2.1).2.2
    refine ⟨?_, .cons ?_ hpairs⟩
    · intro j hj
      rcases List.mem_cons.mp hj with rfl | hj
      · refine ⟨howns.wellPlaced hsplit, first, ?_, by rw [hspan]⟩
        exact List.mem_append_right gap (List.mem_append_left rest (List.mem_of_head? hfirst))
      · obtain ⟨hplaced, t, ht, hstart⟩ := hitems j hj
        exact ⟨hplaced, t, List.mem_append_right gap (List.mem_append_right own ht), hstart⟩
    · intro j hj
      obtain ⟨-, t, ht, hstart⟩ := hitems j hj
      rw [hspan, hstart]
      exact hbehind last (List.mem_of_getLast? hlast) t ht

/-- **The scanner comes to its end on every text**, and each step of it goes forward: no loop needs
more steps than there are characters or tokens. **What it finds is well placed**, in order and
without overlaps. -/
theorem scan_placement (source : List Char) :
    (∀ fuel, source.length ≤ fuel → Piece.readAll fuel source = pieces source) ∧
    (∀ last ∈ (lexemes source).getLast?, Walks last none (lexemes source) (scan source) ∧
      ∀ ts fuel, ts.length < fuel → skipModifiers last fuel ts = keywordPlace last ts) ∧
    (scan source).Pairwise (fun i j => i.span.stop ≤ j.span.start) ∧
    ∀ i ∈ scan source, WellPlaced source i := by
  have hsegments : Segmented (lexemes source) (scan source) := segmented_scan source
  have hsource : lexemes source = [] ++ lexemes source := rfl
  obtain ⟨hitems, hpairs⟩ := hsegments.placed hsource
  refine ⟨fun fuel => readAll_eq_pieces source, ?_, hpairs, fun i hi => (hitems i hi).1⟩
  intro last hlast
  refine ⟨?_, fun ts fuel => skipModifiers_eq_keywordPlace⟩
  rw [scan, scanLexemes_eq_walk hlast]
  exact walks_scanFrom (Nat.le_refl _) none

/-- A structure, and a function whose body is not closed, with a comment in it that is not closed
either. -/
def unclosedSource : List Char :=
  "struct A;\n#[b] fn f(\u00e9: &str) \x7b //! C.\n [ /* ".toList

theorem scan_placement_unclosed :
    scan unclosedSource = [⟨.struct, some "A", ⟨0, 9⟩, none, []⟩,
        ⟨.function, some "f", ⟨10, 41⟩, some ⟨30, 41⟩, [⟨32, 38⟩]⟩] ∧
      WellPlaced unclosedSource ⟨.function, some "f", ⟨10, 41⟩, some ⟨30, 41⟩, [⟨32, 38⟩]⟩ := by
  have hscan : scan unclosedSource = [⟨.struct, some "A", ⟨0, 9⟩, none, []⟩,
      ⟨.function, some "f", ⟨10, 41⟩, some ⟨30, 41⟩, [⟨32, 38⟩]⟩] := by
    decide +kernel
  refine ⟨hscan, (scan_placement _).2.2.2 _ ?_⟩
  rw [hscan]
  exact List.mem_cons_of_mem _ List.mem_cons_self

end LiveDoc.Item
