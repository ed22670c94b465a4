import LiveDoc.Proofs.Item.Cutting
import LiveDoc.Proofs.Text.Trimming

/-!
# Trimming a text between its pieces

A text that stands in front of something else is trimmed between its pieces: what goes are blanks,
those of Unicode among them. Only a line comment can be trimmed itself, and only if it comes last
(`Trimmed`). What is left has the pieces that it had, and it keeps them in front of a brace, unless
it ends with a line comment, which takes the brace with it (`Trimmed.pieces_brace`).
-/

namespace LiveDoc.Item

open Text (isBlank trimEnd)

namespace Piece

/-! ## The last characters of pieces -/

/-- The characters that closed comments and literals end with. -/
def endMarks : List Char := ['/', '"', '\'', '#']

theorem isBlank_of_endMark : ∀ c ∈ endMarks, ¬ isBlank c = true := List.any_eq_false.mp (by decide)

theorem isBlank_of_isWordPart {c : Char} (h : isWordPart c = true) : isBlank c = false := by
  have hbound := toNat_of_isWordPart h
  simp only [isBlank, Bool.or_eq_false_iff, Bool.and_eq_false_iff, decide_eq_false_iff_not,
    beq_eq_false_iff_ne]
  omega

theorem isBlank_of_isSpace {c : Char} (h : isSpace c = true) : isBlank c = true := by
  rw [isSpace_iff] at h
  simp only [List.mem_cons, List.not_mem_nil, or_false] at h
  rcases h with rfl | rfl | rfl | rfl | rfl <;> decide

/-- One character more at the front. -/
theorem getLast?_cons_of_some {c d : Char} {s : List Char} (h : s.getLast? = some d) :
    (c :: s).getLast? = some d := by
  rw [List.getLast?_cons, h]
  rfl

theorem throughQuote_end (s : List Char) (h : (throughQuote s).2 ≠ []) :
    (throughQuote s).1.getLast? = some '\'' := by
  induction s with
  | nil => exact absurd rfl h
  | cons c rest ih =>
    rw [throughQuote_cons] at h ⊢
    split at h
    · next hc => rw [if_pos hc, hc]; rfl
    · next hc =>
      rw [if_neg hc]
      exact getLast?_cons_of_some (ih h)

theorem stringRest_end (s : List Char) (h : (stringRest s).2 ≠ []) :
    (stringRest s).1.getLast? = some '"' := by
  induction s using stringRest.induct with
  | case1 => exact absurd rfl h
  | case2 rest => rw [stringRest_quote]; rfl
  | case3 => exact absurd rfl h
  | case4 d rest _ _ _ _ ih =>
    rw [stringRest_escape] at h ⊢
    exact getLast?_cons_of_some (getLast?_cons_of_some (ih h))
  | case5 c rest hquote hslash _ _ _ ih =>
    rw [stringRest_plain hquote hslash] at h ⊢
    exact getLast?_cons_of_some (ih h)

theorem rawRest_end (hashes : Nat) (s : List Char) (h : (rawRest hashes s).2 ≠ []) :
    ∃ c ∈ endMarks, (rawRest hashes s).1.getLast? = some c := by
  induction s with
  | nil => exact absurd rfl h
  | cons c rest ih =>
    rw [rawRest_cons] at h ⊢
    split at h
    · next hclose =>
      obtain ⟨rfl, more, rfl⟩ := hclose
      rw [if_pos ⟨rfl, List.prefix_append _ _⟩]
      cases hashes with
      | zero => exact ⟨'"', by decide, rfl⟩
      | succ n =>
        refine ⟨'#', by decide, ?_⟩
        simp [List.getLast?_cons, List.getLast?_replicate]
    · next hclose =>
      rw [if_neg hclose]
      obtain ⟨d, hd, hlast⟩ := ih h
      exact ⟨d, hd, getLast?_cons_of_some hlast⟩

theorem blockRest_end (depth : Nat) (s : List Char) (h : (blockRest depth s).2 ≠ []) :
    (blockRest depth s).1.getLast? = some '/' := by
  induction depth, s using blockRest.induct with
  | case1 => exact absurd rfl h
  | case2 => exact absurd rfl h
  | case3 depth c d rest hopen _ _ _ ih =>
    obtain ⟨rfl, rfl⟩ : c = '/' ∧ d = '*' := by simpa using hopen
    rw [blockRest_open] at h ⊢
    exact getLast?_cons_of_some (getLast?_cons_of_some (ih h))
  | case4 depth c d rest _ hclose hdepth =>
    obtain ⟨rfl, rfl⟩ : c = '*' ∧ d = '/' := by simpa using hclose
    rw [blockRest_last hdepth]
    rfl
  | case5 depth c d rest _ hclose hdepth _ _ _ ih =>
    obtain ⟨rfl, rfl⟩ : c = '*' ∧ d = '/' := by simpa using hclose
    rw [blockRest_close hdepth] at h ⊢
    exact getLast?_cons_of_some (getLast?_cons_of_some (ih h))
  | case6 depth c d rest hopen hclose _ _ _ ih =>
    rw [blockRest_plain depth (by simpa using hopen) (by simpa using hclose)] at h ⊢
    exact getLast?_cons_of_some (ih h)

/-- The quote of a lifetime takes nothing more. -/
theorem quoteRest_end (s : List Char) (h : (quoteRest s).2 ≠ []) :
    (quoteRest s).1 = [] ∨ (quoteRest s).1.getLast? = some '\'' := by
  unfold quoteRest at h ⊢
  split at h
  · exact absurd rfl h
  · exact .inr (getLast?_cons_of_some (getLast?_cons_of_some (throughQuote_end _ h)))
  · exact .inr rfl
  · exact .inl rfl

/-- **What an end mark closes ends with it.** -/
theorem Opens.getLast? {k : Kind} {o s taken left : List Char}
    {f : List Char → List Char × List Char} (ho : Opens k o f) (hf : f s = (taken, left))
    (hleft : left ≠ []) : ∃ c ∈ endMarks, (o ++ taken).getLast? = some c := by
  obtain ⟨rfl, rfl⟩ : (f s).1 = taken ∧ (f s).2 = left := by simp [hf]
  have hsome : ∀ c ∈ endMarks, (f s).1.getLast? = some c →
      ∃ c ∈ endMarks, (o ++ (f s).1).getLast? = some c := by
    intro c hc hlast
    refine ⟨c, hc, ?_⟩
    rw [List.getLast?_append, hlast]
    rfl
  cases ho with
  | blockComment => exact hsome '/' (by decide) (blockRest_end 1 s hleft)
  | string => exact hsome '"' (by decide) (stringRest_end s hleft)
  | rawString =>
    obtain ⟨c, hc, hlast⟩ := rawRest_end _ s hleft
    exact hsome c hc hlast
  | quote =>
    rcases quoteRest_end s hleft with hnil | hlast
    · rw [hnil]
      exact ⟨'\'', by decide, by simp⟩
    · exact hsome '\'' (by decide) hlast

theorem Reads.of_lineComment {text left : List Char} (h : Reads .lineComment text left) :
    ∃ taken, text = '/' :: '/' :: taken ∧ '\n' ∉ taken := by
  generalize hk : Kind.lineComment = k at h
  cases h with
  | lineComment htaken => exact ⟨_, rfl, htaken⟩
  | delimited ho => cases ho <;> cases hk
  | mark =>
    unfold markKind at hk
    grind
  | _ => cases hk

theorem getLast?_of_isWordPart {c : Char} {taken : List Char} (hc : isWordPart c = true)
    (htaken : ∀ d ∈ taken, isWordPart d = true) :
    ∃ d, (c :: taken).getLast? = some d ∧ isBlank d = false := by
  refine ⟨_, List.getLast?_eq_some_getLast (List.cons_ne_nil c taken), isBlank_of_isWordPart ?_⟩
  rcases List.mem_cons.mp (List.getLast_mem (List.cons_ne_nil c taken)) with hfirst | hmem
  · rw [hfirst]
    exact hc
  · exact htaken _ hmem

/-- **How pieces end** in front of something: with a blank only if they are nothing but blanks, or
line comments. -/
theorem Reads.end_cases {k : Kind} {text left : List Char} (h : Reads k text left)
    (hleft : left ≠ []) : k = .lineComment ∨
      ((∀ c ∈ text, isBlank c = true) ∧ (k = .blank ∨ k = .unknown)) ∨
      (k ≠ .lineComment ∧ k ≠ .blank ∧ ∃ c, text.getLast? = some c ∧ isBlank c = false) := by
  cases h with
  | lineComment => exact .inl rfl
  | blank hc htaken =>
    refine .inr (.inl ⟨fun c hmem => isBlank_of_isSpace ?_, .inl rfl⟩)
    rcases List.mem_cons.mp hmem with rfl | hmem
    · exact hc
    · exact htaken c hmem
  | delimited ho hf =>
    obtain ⟨c, hc, hlast⟩ := ho.getLast? hf hleft
    refine .inr (.inr ⟨?_, ?_, c, hlast, Bool.eq_false_iff.mpr (isBlank_of_endMark c hc)⟩)
    all_goals cases ho <;> decide
  | word hc htaken =>
    obtain ⟨d, hlast, hd⟩ := getLast?_of_isWordPart (of_isWordStart hc).1 htaken
    exact .inr (.inr ⟨by decide, by decide, d, hlast, hd⟩)
  | rawWord hc htaken =>
    obtain ⟨d, hlast, hd⟩ := getLast?_of_isWordPart (of_isWordStart hc).1 htaken
    refine .inr (.inr ⟨by decide, by decide, d, ?_, hd⟩)
    exact getLast?_cons_of_some (getLast?_cons_of_some hlast)
  | @number c taken _ hc htaken =>
    have hpart : isWordPart c = true := by simp [isWordPart, Char.isAlphanum, hc]
    obtain ⟨d, hlast, hd⟩ := getLast?_of_isWordPart hpart htaken
    exact .inr (.inr ⟨by decide, by decide, d, hlast, hd⟩)
  | arrow => exact .inr (.inr ⟨by decide, by decide, '>', rfl, by decide⟩)
  | @mark c _ hc =>
    by_cases hblank : isBlank c = true
    · -- of the marks only those without a meaning are blanks
      refine .inr (.inl ⟨fun d hd => List.mem_singleton.mp hd ▸ hblank, .inr ?_⟩)
      have hmarks : ∀ d ∈ ['{', '(', '[', '}', ')', ']', ';', '<', '>', '#', '!'], c ≠ d := by
        have hother : ∀ d ∈ ['{', '(', '[', '}', ')', ']', ';', '<', '>', '#', '!'],
            ¬ isBlank d = true := List.any_eq_false.mp (by decide)
        rintro d hd rfl
        exact hother c hd hblank
      simp [markKind, hmarks]
    · refine .inr (.inr ⟨?_, ?_, c, rfl, Bool.eq_false_iff.mpr hblank⟩)
      all_goals
        unfold markKind
        grind

/-- The characters that may start something longer. -/
theorem Continues.mem_of_singleton {c : Char} {o : List Char} (h : Continues [c] o) :
    c ∈ ['r', 'b', 'c', '/', '-', '='] := by
  generalize hw : [c] = w at h
  cases h with
  | rawString n hmem | string hmem =>
    subst hw
    simp at hmem
    grind
  | arrow hc =>
    obtain rfl : c = _ := (List.cons.inj hw).1
    rcases hc with rfl | rfl <;> decide
  | _ =>
    rw [(List.cons.inj hw).1]
    decide

instance (c : Char) : Decidable (IsMark c) := inferInstanceAs (Decidable (_ ∧ _))

/-- Other marks stand alone. -/
theorem reads_mark {c : Char} (hc : IsMark c) (hother : c ∉ ['r', 'b', 'c', '/', '-', '='])
    (left : List Char) : Reads (markKind c) [c] left :=
  .mark hc fun _ ho => absurd ho.mem_of_singleton hother

end Piece

/-! ## Trimmed texts -/

/-- The kinds of pieces that trimming takes away. -/
def trimmedKinds : List Piece.Kind := [.blank, .unknown, .lineComment]

/-- Pieces that are left of a text when it is trimmed at its end, and the text that is left: they
are all of it, or a line comment comes last and has lost the blanks at its end. -/
inductive Trimmed (init : List Piece) : List Char → Prop
  | between : (∀ p ∈ init.getLast?, p.kind ≠ .lineComment) →
      (∀ more : List Char, more.head? ≠ some '\'' → Pieced init (' ' :: more)) →
      Trimmed init (written init)
  | comment {taken : List Char} : '\n' ∉ taken →
      (∀ more, Pieced init ('/' :: '/' :: taken ++ ' ' :: more)) →
      Trimmed init (written init ++ '/' :: '/' :: taken)

/-- A piece in front of another is still read when that one is cut, and a blank stands behind it. -/
theorem Pieced.cut_extend {init : List Piece} {text rest : List Char}
    (h : Pieced init (text ++ rest)) (htext : text ≠ []) (more : List Char) :
    Pieced init (text ++ ' ' :: more) :=
  h.cut.extend htext rfl more

/-- A line comment keeps its slashes when it is trimmed. -/
theorem trimmed_lineComment {init : List Piece} {text left : List Char}
    (h : Piece.Reads .lineComment text left) (hinit : Pieced init (text ++ left)) :
    trimEnd text ≠ [] ∧ Trimmed init (written init ++ trimEnd text) := by
  obtain ⟨taken, rfl, htaken⟩ := h.of_lineComment
  obtain ⟨rest, hrest⟩ : trimEnd taken <+: taken := List.rdropWhile_prefix _ _
  have htrim : trimEnd ('/' :: '/' :: taken) = '/' :: '/' :: trimEnd taken := by
    have hslashes : trimEnd ['/', '/'] = ['/', '/'] := by decide
    have happend := Text.trimEnd_append ['/', '/'] taken
    rw [hslashes] at happend
    refine happend.trans ?_
    split
    · next hnil => rw [hnil]
    · rfl
  rw [htrim]
  refine ⟨List.cons_ne_nil _ _, .comment ?_ fun more => ?_⟩
  · exact fun hmem => htaken ((List.rdropWhile_prefix _ _).subset hmem)
  · have hsplit :
        '/' :: '/' :: taken ++ left = ('/' :: '/' :: trimEnd taken) ++ (rest ++ left) := by
      rw [List.cons_append, List.cons_append, List.cons_append, List.cons_append,
        ← List.append_assoc, hrest]
    rw [hsplit] at hinit
    exact hinit.cut_extend (List.cons_ne_nil _ _) more

/-- **A text in front of something else is trimmed between its pieces.** -/
theorem exists_trimmed {ps : List Piece} {left : List Char} (h : Pieced ps left)
    (hleft : left ≠ []) :
    ∃ init dropped, ps = init ++ dropped ∧ (∀ p ∈ dropped, p.kind ∈ trimmedKinds) ∧
      Trimmed init (trimEnd (written ps)) := by
  induction ps using List.reverseRecOn generalizing left with
  | nil => exact ⟨[], [], rfl, nofun, .between nofun fun _ _ => .nil⟩
  | append_singleton init p ih =>
    rw [pieced_append, pieced_cons] at h
    obtain ⟨hinit, hp, -⟩ := h
    simp only [written_cons, written_nil, List.append_nil, List.nil_append] at hinit hp
    rw [written_append, written_cons, written_nil, List.append_nil, Text.trimEnd_append]
    rcases hp.end_cases hleft with hline | ⟨hblank, hkind⟩ | ⟨hline, hblank, c, hlast, hc⟩
    · rw [hline] at hp
      obtain ⟨hne, htrimmed⟩ := trimmed_lineComment hp hinit
      rw [if_neg hne]
      refine ⟨init, [p], rfl, fun q hq => ?_, htrimmed⟩
      rw [List.mem_singleton.mp hq, hline]
      decide
    · have hnil : trimEnd p.text = [] := by
        rw [Text.trimEnd_eq, List.rdropWhile_eq_nil_iff]
        exact hblank
      obtain ⟨init, dropped, rfl, hdropped, htrimmed⟩ :=
        ih hinit (List.append_ne_nil_of_left_ne_nil hp.ne_nil left)
      rw [if_pos hnil]
      refine ⟨init, dropped ++ [p], by rw [List.append_assoc], ?_, htrimmed⟩
      intro q hq
      rcases List.mem_append.mp hq with hq | hq
      · exact hdropped q hq
      · rw [List.mem_singleton.mp hq]
        rcases hkind with hkind | hkind <;> rw [hkind] <;> decide
    · have hsame : trimEnd p.text = p.text := Text.trimEnd_of_getLast? hlast hc
      have hwritten : written init ++ p.text = written (init ++ [p]) := by simp
      rw [hsame, if_neg hp.ne_nil, hwritten]
      refine ⟨init ++ [p], [], (List.append_nil _).symm, nofun, .between ?_ fun more hmore => ?_⟩
      · intro q hq
        rw [List.getLast?_append, List.getLast?_singleton] at hq
        rw [← Option.some.inj hq]
        exact hline
      · rw [pieced_append, pieced_cons, written_cons, written_nil, List.append_nil]
        exact ⟨hinit.cut_extend hp.ne_nil more,
          hp.blank_behind rfl hblank (fun h => absurd h hline) (fun _ => hleft) (fun _ => hmore),
            .nil⟩

/-! ## A brace behind a trimmed text -/

/-- The pieces of a trimmed text with a brace and a body behind it. A line comment takes the brace
with it. -/
theorem Trimmed.pieces_brace {init tail : List Piece} {text : List Char} (h : Trimmed init text)
    (htail : Pieced tail []) (hfirst : (written tail).head? = some '\n') :
    ((∀ p ∈ (pieces text).getLast?, p.kind ≠ .lineComment) ∧ text = written init ∧
      pieces (text ++ ' ' :: '{' :: written tail) =
        init ++ ⟨.blank, [' ']⟩ :: ⟨.open, ['{']⟩ :: tail) ∨
    ((∃ p ∈ (pieces text).getLast?, p.kind = .lineComment) ∧
      ∃ comment, pieces (text ++ ' ' :: '{' :: written tail) =
        init ++ ⟨.lineComment, comment⟩ :: tail) := by
  cases h with
  | between hlast hinit =>
    have halone : pieces (written init) = init :=
      (Pieced.cut (u := []) (hinit [] (by decide))).pieces_eq
    have hall : Pieced (init ++ ⟨.blank, [' ']⟩ :: ⟨.open, ['{']⟩ :: tail) [] := by
      rw [pieced_append, pieced_cons, pieced_cons]
      have hbrace := Piece.reads_mark (c := '{') (by decide) (by decide) (written tail ++ [])
      refine ⟨hinit _ (by simp), .blank rfl nofun ?_, hbrace, htail⟩
      exact fun d hd => Option.some.inj hd ▸ rfl
    have htext : written init ++ ' ' :: '{' :: written tail =
        written (init ++ ⟨.blank, [' ']⟩ :: ⟨.open, ['{']⟩ :: tail) := by
      simp
    rw [halone, htext, hall.pieces_eq]
    exact .inl ⟨hlast, rfl, rfl⟩
  | @comment taken htaken hinit =>
    have halone : Pieced (init ++ [⟨.lineComment, '/' :: '/' :: taken⟩]) [] := by
      rw [pieced_append, pieced_cons]
      have hcut : Pieced init ('/' :: '/' :: taken) := (hinit []).cut
      exact ⟨by simpa using hcut, .lineComment htaken nofun, .nil⟩
    have hall :
        Pieced (init ++ ⟨.lineComment, '/' :: '/' :: (taken ++ [' ', '{'])⟩ :: tail) [] := by
      rw [pieced_append, pieced_cons]
      refine ⟨?_, .lineComment ?_ ?_, htail⟩
      · simpa using hinit ('{' :: written tail)
      · simpa using htaken
      · intro d hd
        rw [List.append_nil, hfirst] at hd
        exact (Option.some.inj hd).symm
    have hwritten : written init ++ '/' :: '/' :: taken =
        written (init ++ [⟨.lineComment, '/' :: '/' :: taken⟩]) := by
      simp
    have htext : written init ++ '/' :: '/' :: taken ++ ' ' :: '{' :: written tail =
        written (init ++ ⟨.lineComment, '/' :: '/' :: (taken ++ [' ', '{'])⟩ :: tail) := by
      simp
    refine .inr ⟨⟨⟨.lineComment, '/' :: '/' :: taken⟩, ?_, rfl⟩, _, htext ▸ hall.pieces_eq⟩
    rw [hwritten, halone.pieces_eq, List.getLast?_append]
    rfl

end LiveDoc.Item
