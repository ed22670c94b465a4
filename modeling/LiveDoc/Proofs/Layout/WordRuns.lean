import LiveDoc.Layout.Words
import LiveDoc.Proofs.Text.Slice
import Mathlib.Logic.ExistsUnique

/-!
# Words are maximal runs

A character of a text separates words or belongs to one, by itself and by the place where it stands.
The words are the longest pieces that hold no separating character, in their order.

* `Cut` — a text as its words with separating characters around them; the words are read off such a
  cut (`cut_words`);
* `IsRun` — the span of a longest piece, told by the characters in it and next to it. Two runs that
  share a place are one (`IsRun.eq_of_contains`);
* `exists_maximalRuns` — the words of a text are cut out by its runs, by all of them, in order.
-/

namespace LiveDoc.Layout

open Text (Span CharAt byteLength byteLength_append slice charAt_append charAt_cons)

variable {kept : List Span} {offset place : Nat} {text word rest : List Char}
  {ws : List (List Char)}

/-! ## Texts of one kind -/

/-- All characters of a text at a place separate words, or none of them does. -/
def Uniform (kept : List Span) (separates : Bool) (place : Nat) (text : List Char) : Prop :=
  ∀ p c, CharAt text p c → splits kept (place + p) c = separates

theorem uniform_nil (separates : Bool) : Uniform kept separates place [] :=
  fun p c h => absurd h (Text.not_charAt_nil p c)

theorem uniform_cons {separates : Bool} {c : Char} : Uniform kept separates place (c :: text) ↔
    splits kept place c = separates ∧ Uniform kept separates (place + c.utf8Size) text := by
  constructor
  · intro h
    refine ⟨h 0 c (charAt_cons.mpr (.inl ⟨rfl, rfl⟩)), fun p d hd => ?_⟩
    rw [Nat.add_assoc]
    exact h _ d (charAt_cons.mpr (.inr ⟨p, rfl, hd⟩))
  · rintro ⟨hc, htext⟩ p d hd
    rcases charAt_cons.mp hd with ⟨rfl, rfl⟩ | ⟨q, rfl, hq⟩
    · exact hc
    · rw [← Nat.add_assoc]
      exact htext q d hq

/-! ## Texts cut into words -/

/-- A text at a place as its words: separating characters, then a word that runs up to the next
separating character or to the end, and so on. -/
inductive Cut (kept : List Span) : (place : Nat) → List Char → List (List Char) → Prop
  | gap {place : Nat} {gap : List Char} (hgap : Uniform kept true place gap) : Cut kept place gap []
  | word {place : Nat} {gap word rest : List Char} {ws : List (List Char)}
      (hgap : Uniform kept true place gap) (hne : word ≠ [])
      (hword : Uniform kept false (place + byteLength gap) word)
      (hend : ∀ c ∈ rest.head?, splits kept (place + byteLength gap + byteLength word) c = true)
      (h : Cut kept (place + byteLength gap + byteLength word) rest ws) :
      Cut kept place (gap ++ (word ++ rest)) (word :: ws)

/-- One separating character more at the front. -/
theorem Cut.cons {c : Char} (hc : splits kept place c = true)
    (h : Cut kept (place + c.utf8Size) text ws) : Cut kept place (c :: text) ws := by
  cases h with
  | gap hgap => exact .gap (uniform_cons.mpr ⟨hc, hgap⟩)
  | @word _ gap word rest ws hgap hne hword hend h =>
    have hplace : place + c.utf8Size + byteLength gap = place + byteLength (c :: gap) :=
      Nat.add_assoc ..
    rw [hplace] at hword hend h
    exact .word (uniform_cons.mpr ⟨hc, hgap⟩) hne hword hend h

/-- The words of a text behind the start of a word: the word goes on up to the next separating
character. -/
theorem cut_wordsFrom (place : Nat) (text : List Char) :
    Cut kept place text (wordsFrom kept place [] text) ∧ ∀ word ≠ [],
      ∃ more rest ws, text = more ++ rest ∧ Uniform kept false place more ∧
      (∀ c ∈ rest.head?, splits kept (place + byteLength more) c = true) ∧
      wordsFrom kept place word text = (word.reverse ++ more) :: ws ∧
      Cut kept (place + byteLength more) rest ws := by
  induction text generalizing place with
  | nil =>
    refine ⟨.gap (uniform_nil true),
      fun word hne => ⟨[], [], [], rfl, uniform_nil false, ?_, ?_, ?_⟩⟩
    · exact nofun
    · rw [wordsFrom, if_neg (by simpa using hne), List.append_nil]
    · exact .gap (uniform_nil true)
  | cons c text ih =>
    obtain ⟨hgap, hword⟩ := ih (place + c.utf8Size)
    cases hc : splits kept place c with
    | true =>
      have hcut := hgap.cons hc
      refine ⟨?_, fun word hne => ⟨[], c :: text, _, rfl, uniform_nil false, ?_, ?_, hcut⟩⟩
      · rw [wordsFrom, if_pos hc, List.isEmpty_nil, if_pos rfl]
        exact hcut
      · rintro d hd
        obtain rfl := Option.some.inj hd
        exact hc
      · rw [wordsFrom, if_pos hc, if_neg (by simpa using hne), List.append_nil]
    | false =>
      -- the character goes on with the word, or starts one
      have hgo : ∀ word, ∃ more rest ws, c :: text = more ++ rest ∧ more ≠ [] ∧
          Uniform kept false place more ∧
          (∀ d ∈ rest.head?, splits kept (place + byteLength more) d = true) ∧
          wordsFrom kept place word (c :: text) = (word.reverse ++ more) :: ws ∧
          Cut kept (place + byteLength more) rest ws := by
        intro word
        obtain ⟨more, rest, ws, rfl, hmore, hend, hwords, hcut⟩ :=
          hword (c :: word) (List.cons_ne_nil c word)
        have hplace : place + c.utf8Size + byteLength more = place + byteLength (c :: more) :=
          Nat.add_assoc ..
        rw [hplace] at hend hcut
        have hmore' := uniform_cons.mpr ⟨hc, hmore⟩
        refine ⟨c :: more, rest, ws, rfl, List.cons_ne_nil c more, hmore', hend, ?_, hcut⟩
        rw [wordsFrom, hc, if_neg (by decide), hwords, List.reverse_cons, List.append_assoc,
          List.singleton_append]
      constructor
      · obtain ⟨more, rest, ws, htext, hne, hmore, hend, hwords, hcut⟩ := hgo []
        rw [htext, ← htext, hwords, htext]
        exact .word (uniform_nil true) hne hmore hend hcut
      · intro word _
        obtain ⟨more, rest, ws, htext, -, hrest⟩ := hgo word
        exact ⟨more, rest, ws, htext, hrest⟩

/-- **A text is cut into its words.** -/
theorem cut_words (kept : List Span) (place : Nat) (text : List Char) :
    Cut kept place text (words kept place text) :=
  (cut_wordsFrom place text).1

/-! ## Runs -/

/-- The span of a longest piece of a text without separating characters. The text stands at an
offset to the places that are kept. -/
structure IsRun (kept : List Span) (offset : Nat) (text : List Char) (span : Span) : Prop where
  nonempty : span.start < span.stop
  cut : (slice text span).isSome
  solid : ∀ p c, CharAt text p c → span.contains p = true → splits kept (offset + p) c = false
  before : ∀ p c, CharAt text p c → p + c.utf8Size = span.start → splits kept (offset + p) c = true
  behind : ∀ c, CharAt text span.stop c → splits kept (offset + span.stop) c = true

theorem IsRun.exists_parts {span : Span} (h : IsRun kept offset text span) :
    ∃ run before after, Text.Parts text span before run after := by
  obtain ⟨run, hrun⟩ := Option.isSome_iff_exists.mp h.cut
  exact ⟨run, Text.slice_eq_some_iff.mp hrun⟩

theorem IsRun.contains_start {span : Span} (h : IsRun kept offset text span) :
    span.contains span.start = true :=
  Span.contains_iff.mpr ⟨Nat.le_refl _, h.nonempty⟩

/-- A run starts with a character that separates nothing. -/
theorem IsRun.exists_first {span : Span} (h : IsRun kept offset text span) :
    ∃ c, CharAt text span.start c ∧ splits kept (offset + span.start) c = false := by
  obtain ⟨run, before, after, hparts⟩ := h.exists_parts
  have hne : run ++ after ≠ [] := by
    have hlength := hparts.stop
    have hnonempty := h.nonempty
    refine List.append_ne_nil_of_left_ne_nil (fun hnil => ?_) after
    rw [hnil, byteLength, ← hparts.start] at hlength
    omega
  obtain ⟨c, hc⟩ := Text.exists_charAt before hne
  rw [← hparts.whole, ← hparts.start] at hc
  exact ⟨c, hc, h.solid _ c hc h.contains_start⟩

/-- A run does not start in front of another one that it shares a place with. -/
theorem IsRun.start_le {s t : Span} (hs : IsRun kept offset text s) (ht : IsRun kept offset text t)
    {p : Nat} (hps : s.contains p = true) (hpt : t.contains p = true) : t.start ≤ s.start := by
  refine Nat.le_of_not_lt fun hlt => ?_
  obtain ⟨_, early, _, hsparts⟩ := hs.exists_parts
  obtain ⟨_, front, _, htparts⟩ := ht.exists_parts
  rw [Span.contains_iff] at hps hpt
  have hearly : early <+: text := ⟨_, hsparts.whole.symm⟩
  have hfront : front <+: text := ⟨_, htparts.whole.symm⟩
  obtain ⟨q, c, hc, hstop, hle⟩ := Text.exists_charAt_before hearly hfront
    (by rw [← hsparts.start, ← htparts.start]; omega)
  rw [← hsparts.start] at hle
  rw [← htparts.start] at hstop
  have hinside : s.contains q = true := by
    have hpos := c.utf8Size_pos
    rw [Span.contains_iff]
    omega
  -- the character in front of one run would be in the other
  have hsolid := hs.solid q c hc hinside
  rw [ht.before q c hc hstop] at hsolid
  cases hsolid

/-- A run does not end in front of another one that it shares a place with. -/
theorem IsRun.le_stop {s t : Span} (hs : IsRun kept offset text s) (ht : IsRun kept offset text t)
    {p : Nat} (hps : s.contains p = true) (hpt : t.contains p = true) : t.stop ≤ s.stop := by
  refine Nat.le_of_not_lt fun hlt => ?_
  obtain ⟨run, before, after, hsparts⟩ := hs.exists_parts
  obtain ⟨_, _, _, htparts⟩ := ht.exists_parts
  rw [Span.contains_iff] at hps hpt
  have hafter : after ≠ [] := by
    rintro rfl
    have hle := htparts.stop_le
    have hstop := hsparts.stop
    rw [hsparts.whole, List.append_nil, byteLength_append] at hle
    omega
  obtain ⟨c, hc⟩ := Text.exists_charAt (before ++ run) hafter
  rw [List.append_assoc, ← hsparts.whole, byteLength_append, ← hsparts.stop] at hc
  have hinside : t.contains s.stop = true := by
    rw [Span.contains_iff]
    omega
  have hsolid := ht.solid s.stop c hc hinside
  rw [hs.behind c hc] at hsolid
  cases hsolid

/-- **Runs that share a place are one.** -/
theorem IsRun.eq_of_contains {s t : Span} (hs : IsRun kept offset text s)
    (ht : IsRun kept offset text t) {p : Nat} (hps : s.contains p = true)
    (hpt : t.contains p = true) : s = t := by
  have hstart := Nat.le_antisymm (ht.start_le hs hpt hps) (hs.start_le ht hps hpt)
  have hstop := Nat.le_antisymm (ht.le_stop hs hpt hps) (hs.le_stop ht hps hpt)
  calc s = ⟨s.start, s.stop⟩ := rfl
    _ = ⟨t.start, t.stop⟩ := by rw [hstart, hstop]

/-- A word is a run where separating characters or the ends of the text are around it. -/
theorem isRun_of_parts {span : Span} {before after : List Char}
    (h : Text.Parts text span before word after) (hne : word ≠ [])
    (hword : Uniform kept false (offset + span.start) word)
    (hbefore : ∀ p c, CharAt before p c → p + c.utf8Size = span.start →
      splits kept (offset + p) c = true)
    (hafter : ∀ c ∈ after.head?, splits kept (offset + span.stop) c = true) :
    IsRun kept offset text span := by
  have hlength : 0 < byteLength word := by
    rw [Nat.pos_iff_ne_zero, Ne, Text.byteLength_eq_zero_iff]
    exact hne
  have hstart := h.start
  have hstop := h.stop
  refine ⟨by omega, ?_, fun p c hc hp => ?_, fun p c hc hp => ?_, fun c hc => ?_⟩
  · exact Option.isSome_iff_exists.mpr ⟨word, Text.slice_eq_some_iff.mpr ⟨before, after, h⟩⟩
  · rw [Span.contains_iff] at hp
    rcases h.charAt_iff.mp hc with hfront | ⟨q, rfl, hq⟩ | ⟨q, rfl, hq⟩
    · have hlt := hfront.lt
      omega
    · rw [← Nat.add_assoc]
      exact hword q c hq
    · omega
  · have hpos := c.utf8Size_pos
    rcases h.charAt_iff.mp hc with hfront | ⟨q, rfl, -⟩ | ⟨q, rfl, -⟩
    · exact hbefore p c hfront hp
    · omega
    · omega
  · rcases h.charAt_iff.mp hc with hfront | ⟨q, hplace, hq⟩ | ⟨q, hplace, hq⟩
    · have hlt := hfront.lt
      omega
    · have hlt := hq.lt
      omega
    · obtain rfl : q = 0 := by omega
      exact hafter c hq.head?

/-- The runs of a text from a place on, with the words that they cut out. -/
structure RunsFrom (kept : List Span) (offset : Nat) (text : List Char) (start : Nat)
    (ws : List (List Char)) (spans : List Span) : Prop where
  slices : spans.map (slice text) = ws.map some
  runs : ∀ s ∈ spans, IsRun kept offset text s ∧ start ≤ s.start
  ordered : spans.Pairwise fun s t => s.stop ≤ t.start
  covers : ∀ p c, CharAt text p c → start ≤ p → splits kept (offset + p) c = false →
    ∃ s ∈ spans, s.contains p = true

/-- A run, with separating characters between a front and it, comes first. -/
theorem RunsFrom.cons {span : Span} {spans : List Span} {front gap after : List Char}
    (hparts : Text.Parts text span (front ++ gap) word after) (hrun : IsRun kept offset text span)
    (hgap : Uniform kept true (offset + byteLength front) gap)
    (h : RunsFrom kept offset text span.stop ws spans) :
    RunsFrom kept offset text (byteLength front) (word :: ws) (span :: spans) := by
  have hstart := hparts.start
  rw [byteLength_append] at hstart
  have hnonempty := hrun.nonempty
  refine ⟨?_, ?_, .cons (fun t ht => (h.runs t ht).2) h.ordered, fun p c hc hp hsplits => ?_⟩
  · rw [List.map_cons, List.map_cons, h.slices, Text.slice_eq_some_iff.mpr ⟨_, _, hparts⟩]
  · rw [List.forall_mem_cons]
    refine ⟨⟨hrun, by omega⟩, fun s hs => ⟨(h.runs s hs).1, ?_⟩⟩
    have hle := (h.runs s hs).2
    omega
  · rcases hparts.charAt_iff.mp hc with hfront | ⟨q, rfl, hq⟩ | ⟨q, rfl, -⟩
    · rcases charAt_append.mp hfront with hfront | ⟨q, rfl, hq⟩
      · exact absurd hfront.lt (Nat.not_lt.mpr hp)
      · have hgaps := hgap q c hq
        rw [Nat.add_assoc, hsplits] at hgaps
        cases hgaps
    · refine ⟨span, List.mem_cons_self, ?_⟩
      have hlt := hq.lt
      have hstop := hparts.stop
      rw [byteLength_append] at hstop
      rw [Span.contains_iff]
      omega
    · obtain ⟨s, hs, hcontains⟩ := h.covers _ c hc (Nat.le_add_right ..) hsplits
      exact ⟨s, List.mem_cons_of_mem span hs, hcontains⟩

/-- The words of a text behind some front are its runs from there on, if no run reaches over the
place between the two. -/
theorem Cut.exists_runs {front : List Char} (h : Cut kept (offset + byteLength front) rest ws)
    (hfront : front = [] ∨ ∀ c ∈ rest.head?, splits kept (offset + byteLength front) c = true) :
    ∃ spans, RunsFrom kept offset (front ++ rest) (byteLength front) ws spans := by
  generalize hplace : offset + byteLength front = place at h hfront
  induction h generalizing front with
  | @gap place gap hgap =>
    refine ⟨[], rfl, nofun, .nil, fun p c hc hp hsplits => ?_⟩
    rcases charAt_append.mp hc with hc | ⟨q, rfl, hq⟩
    · exact absurd hc.lt (Nat.not_lt.mpr hp)
    · have hgaps := hgap q c hq
      rw [← hplace, Nat.add_assoc, hsplits] at hgaps
      cases hgaps
  | @word place gap word rest ws hgap hne hword hend _ ih =>
    have hbefore : place + byteLength gap = offset + byteLength (front ++ gap) := by
      rw [byteLength_append, ← hplace, Nat.add_assoc]
    have hbehind : place + byteLength gap + byteLength word =
        offset + byteLength (front ++ gap ++ word) := by
      rw [byteLength_append, ← Nat.add_assoc, hbefore]
    obtain ⟨spans, hspans⟩ := ih hbehind.symm (.inr hend)
    rw [hbehind] at hend
    have hparts : Text.Parts (front ++ gap ++ word ++ rest)
        ⟨byteLength (front ++ gap), byteLength (front ++ gap ++ word)⟩ (front ++ gap) word rest :=
      ⟨List.append_assoc .., rfl, byteLength_append ..⟩
    have hfirst : ∀ p c, CharAt (front ++ gap) p c → p + c.utf8Size = byteLength (front ++ gap) →
        splits kept (offset + p) c = true := by
      intro p c hc hp
      rcases charAt_append.mp hc with hc | ⟨q, rfl, hq⟩
      · -- nothing is in between, so the word would start with the separating character behind the
        -- front
        have hle := hc.stop_le
        rw [byteLength_append] at hp
        obtain rfl : gap = [] := Text.byteLength_eq_zero_iff.mp (by omega)
        rcases hfront with rfl | hfront
        · exact absurd hc (Text.not_charAt_nil p c)
        · obtain ⟨d, more, rfl⟩ := List.exists_cons_of_ne_nil hne
          have hsolid : splits kept place d = false := (uniform_cons.mp hword).1
          rw [hfront d rfl] at hsolid
          cases hsolid
      · rw [← Nat.add_assoc, hplace]
        exact hgap q c hq
    have hrun := isRun_of_parts hparts hne (hbefore ▸ hword) hfirst hend
    have htext : front ++ (gap ++ (word ++ rest)) = front ++ gap ++ word ++ rest := by simp
    rw [htext]
    exact ⟨_, .cons hparts hrun (hplace ▸ hgap) hspans⟩

/-- The spans of the words of a text: all its runs, with a separating character between any two of
them. So each character that does not separate is in exactly one of them. -/
structure MaximalRuns (kept : List Span) (offset : Nat) (text : List Char) (spans : List Span) :
    Prop where
  mem_iff : ∀ s, s ∈ spans ↔ IsRun kept offset text s
  separated : spans.Pairwise fun s t => ∃ p c, CharAt text p c ∧ splits kept (offset + p) c = true ∧
    s.stop ≤ p ∧ p + c.utf8Size ≤ t.start
  covers : ∀ p c, CharAt text p c →
    (splits kept (offset + p) c = false ↔ ∃! s, s ∈ spans ∧ s.contains p = true)

/-- Two runs in order have a separating character between them. -/
theorem IsRun.separated {s t : Span} (hs : IsRun kept offset text s) (ht : IsRun kept offset text t)
    (h : s.stop ≤ t.start) : ∃ p c, CharAt text p c ∧ splits kept (offset + p) c = true ∧
      s.stop ≤ p ∧ p + c.utf8Size ≤ t.start := by
  have hne : s.stop ≠ t.start := by
    intro hstop
    obtain ⟨c, hc, hsolid⟩ := ht.exists_first
    rw [← hstop] at hc hsolid
    rw [hs.behind c hc] at hsolid
    cases hsolid
  obtain ⟨run, before, after, hsparts⟩ := hs.exists_parts
  obtain ⟨_, front, _, htparts⟩ := ht.exists_parts
  have hearly : before ++ run <+: text := ⟨after, by rw [List.append_assoc, hsparts.whole]⟩
  have hfront : front <+: text := ⟨_, htparts.whole.symm⟩
  have hcut : byteLength (before ++ run) = s.stop := by
    rw [byteLength_append, hsparts.stop]
  obtain ⟨p, c, hc, hstop, hle⟩ := Text.exists_charAt_before hearly hfront
    (by rw [hcut, ← htparts.start]; omega)
  rw [hcut] at hle
  rw [← htparts.start] at hstop
  exact ⟨p, c, hc, ht.before p c hc hstop, hle, Nat.le_of_eq hstop⟩

/-- **The words of a text are its maximal runs.** There are spans that cut the words out of the
text, one for one and in order, and these spans are all runs of the text. -/
theorem exists_maximalRuns (kept : List Span) (offset : Nat) (text : List Char) :
    ∃ spans, spans.map (slice text) = (words kept offset text).map some ∧
      MaximalRuns kept offset text spans := by
  have hcut : Cut kept (offset + byteLength []) text (words kept offset text) :=
    cut_words kept offset text
  obtain ⟨spans, h⟩ := hcut.exists_runs (.inl rfl)
  rw [List.nil_append] at h
  have hcovers : ∀ p c, CharAt text p c → splits kept (offset + p) c = false →
      ∃ s ∈ spans, s.contains p = true := fun p c hc => h.covers p c hc (Nat.zero_le p)
  refine ⟨spans, h.slices, fun s => ⟨fun hs => (h.runs s hs).1, fun hs => ?_⟩, ?_,
    fun p c hc => ⟨?_, ?_⟩⟩
  · -- a run starts with a character that does not separate, and this is in one of the spans
    obtain ⟨c, hc, hsolid⟩ := hs.exists_first
    obtain ⟨t, ht, hcontains⟩ := hcovers _ c hc hsolid
    rw [hs.eq_of_contains (h.runs t ht).1 hs.contains_start hcontains]
    exact ht
  · refine h.ordered.imp_of_mem fun hs ht hle => ?_
    exact (h.runs _ hs).1.separated (h.runs _ ht).1 hle
  · intro hsplits
    obtain ⟨s, hs, hcontains⟩ := hcovers p c hc hsplits
    refine ⟨s, ⟨hs, hcontains⟩, fun t ht => ?_⟩
    exact (h.runs t ht.1).1.eq_of_contains (h.runs s hs).1 ht.2 hcontains
  · rintro ⟨s, ⟨hs, hcontains⟩, -⟩
    exact (h.runs s hs).1.solid p c hc hcontains

/-- Blanks of several bytes, and kept spans that start inside of a word, that overlap, and that hold
nothing. -/
example : words [⟨8, 12⟩, ⟨11, 13⟩, ⟨9, 2⟩] 2 "\u3000\u00e9 a \u00a0b\tc\u2003".toList =
    ["\u00e9".toList, "a \u00a0b".toList, "c".toList] := by
  decide

end LiveDoc.Layout
