import LiveDoc.Proofs.Item.ByteScan

/-!
# Where comments and literals end

Comments and literals end at a mark, told here by the text alone and not by the readers that look
for it:

* `Through` — the first occurrence of a mark; raw strings and character literals end there;
* `Nested` — the close mark that balances the open marks of a block comment;
* `Quoted` — the first quote that no backslash takes with it;
* `Closes` — the comments and literals of each kind, with the text that is left behind them. Without
  its mark each of them takes the text to its end (`Reads.closes`).
-/

namespace LiveDoc.Item.Piece

open Text (encode byteLength)

/-! ## The first occurrence of a mark -/

/-- What goes up to and with the first occurrence of a mark, and to the end of a text that has
none. -/
inductive Through (mark : List Char) : (taken left : List Char) → Prop
  | found (inner left : List Char)
      (first : ∀ front, front ++ mark <+: inner ++ mark ++ left → inner.length ≤ front.length) :
      Through mark (inner ++ mark) left
  | missing {taken : List Char} (h : ¬ mark <:+: taken) : Through mark taken []

/-- A character more at the front, where the mark does not start. -/
theorem Through.cons {mark taken left : List Char} {c : Char} (h : Through mark taken left)
    (hc : ¬ mark <+: c :: (taken ++ left)) : Through mark (c :: taken) left := by
  cases h with
  | found inner left first =>
    refine .found (c :: inner) left fun front hfront => ?_
    cases front with
    | nil => exact absurd hfront hc
    | cons d front =>
      have hrest := first front (List.cons_prefix_cons.mp hfront).2
      simpa using hrest
  | missing h =>
    rw [List.append_nil] at hc
    exact .missing fun hinfix => (List.infix_cons_iff.mp hinfix).elim hc h

/-- A reader that steps over characters up to a mark takes it with it. -/
theorem through_of_steps {mark : List Char} {f : List Char → List Char × List Char}
    (hf : Delimits f) (hmark : mark ≠ []) (hnil : f [] = ([], []))
    (hfound : ∀ rest, f (mark ++ rest) = (mark, rest))
    (hstep : ∀ c rest, ¬ mark <+: c :: rest → f (c :: rest) = (c :: (f rest).1, (f rest).2))
    (s : List Char) : Through mark (f s).1 (f s).2 := by
  induction s with
  | nil =>
    rw [hnil]
    exact .missing fun h => hmark (List.infix_nil.mp h)
  | cons c rest ih =>
    by_cases hstart : mark <+: c :: rest
    · obtain ⟨behind, hbehind⟩ := hstart
      rw [← hbehind, hfound]
      exact .found [] behind fun front _ => Nat.zero_le front.length
    · rw [hstep c rest hstart]
      exact ih.cons (by rwa [hf.whole])

theorem through_throughQuote (s : List Char) :
    Through ['\''] (throughQuote s).1 (throughQuote s).2 := by
  refine through_of_steps delimits_throughQuote (List.cons_ne_nil _ _) rfl (fun rest => rfl) ?_ s
  intro c rest hstart
  rw [singleton_isPrefix, List.head?_cons, Option.some.injEq] at hstart
  rw [throughQuote_cons, if_neg hstart]

/-- **A raw string ends at the first quote with its hashes behind it.** -/
theorem through_rawRest (hashes : Nat) (s : List Char) :
    Through ('"' :: List.replicate hashes '#') (rawRest hashes s).1 (rawRest hashes s).2 := by
  refine through_of_steps (delimits_rawRest hashes) (List.cons_ne_nil _ _) rfl (fun rest => ?_) ?_ s
  · rw [List.cons_append, rawRest_cons, if_pos ⟨rfl, List.prefix_append _ _⟩,
      List.take_left' (by simp), List.drop_left' (by simp)]
  · intro c rest hstart
    rw [rawRest_cons, if_neg]
    rintro ⟨rfl, hhashes⟩
    exact hstart (List.cons_prefix_cons.mpr ⟨rfl, hhashes⟩)

/-! ## Block comments -/

/-- The mark that opens a block comment, also inside of one. -/
def openMark : List Char := ['/', '*']

/-- The mark that closes the innermost block comment. -/
def closeMark : List Char := ['*', '/']

/-- The text of a comment from left to right: open marks, close marks, and single characters. -/
def commentParts : List Char → List (List Char)
  | [] => []
  | [c] => [[c]]
  | c :: d :: rest =>
    if [c, d] = openMark ∨ [c, d] = closeMark then [c, d] :: commentParts rest
    else [c] :: commentParts (d :: rest)

/-- What is taken of a comment of which `depth` levels are open: its parts up to the first close
mark that brings as many close marks as there are levels and further open marks, and all of them
when there is no such mark. -/
structure Nested (depth : Nat) (taken left : List Char) (parts : List (List Char)) : Prop where
  append : commentParts (taken ++ left) = parts ++ commentParts left
  flatten : parts.flatten = taken
  inside : ∀ front, front <+: parts → front ≠ parts →
    front.count closeMark < front.count openMark + depth
  balanced : parts.count closeMark = parts.count openMark + depth ∨
    (left = [] ∧ parts.count closeMark < parts.count openMark + depth)

/-- A part more at the front, which opens a level, closes one, or neither. -/
theorem Nested.cons {depth depth' : Nat} {taken left : List Char} {parts : List (List Char)}
    (h : Nested depth' taken left parts) (part : List Char) (hdepth : 0 < depth)
    (hparts : commentParts (part ++ (taken ++ left)) = part :: commentParts (taken ++ left))
    (hlevel : depth' + [part].count closeMark = depth + [part].count openMark) :
    Nested depth (part ++ taken) left (part :: parts) := by
  have hcount :
      ∀ ps mark, List.count mark (part :: ps) = List.count mark [part] + List.count mark ps := by
    intro ps mark
    rw [← List.singleton_append, List.count_append]
  refine ⟨?_, ?_, ?_, ?_⟩
  · rw [List.append_assoc, hparts, h.append, List.cons_append]
  · rw [List.flatten_cons, h.flatten]
  · intro front hfront hne
    rcases List.prefix_cons_iff.mp hfront with rfl | ⟨front, rfl, hrest⟩
    · simpa using hdepth
    · have hinside := h.inside front hrest fun heq => hne (heq ▸ rfl)
      rw [hcount front closeMark, hcount front openMark]
      omega
  · rw [hcount parts closeMark, hcount parts openMark]
    refine h.balanced.imp (fun hclosed => ?_) (fun hopen => ⟨hopen.1, ?_⟩)
    · omega
    · have hlt := hopen.2
      omega

theorem nested_nil {depth : Nat} (hdepth : 0 < depth) : Nested depth [] [] [] := by
  refine ⟨rfl, rfl, fun front hfront hne => absurd (List.prefix_nil.mp hfront) hne, .inr ⟨rfl, ?_⟩⟩
  simpa using hdepth

/-- A single character opens nothing and closes nothing. -/
theorem count_mark_singleton (c : Char) : [[c]].count closeMark = [[c]].count openMark := by
  simp [openMark, closeMark]

theorem commentParts_plain {c d : Char} (hopen : ¬ (c = '/' ∧ d = '*'))
    (hclose : ¬ (c = '*' ∧ d = '/')) (rest : List Char) :
    commentParts (c :: d :: rest) = [c] :: commentParts (d :: rest) := by
  rw [commentParts, if_neg]
  simpa [openMark, closeMark] using ⟨not_and.mp hopen, not_and.mp hclose⟩

/-- **A block comment ends at the close mark that balances its open marks**, also behind comments in
it. -/
theorem exists_nested {depth : Nat} (s : List Char) (hdepth : 0 < depth) :
    ∃ parts, Nested depth (blockRest depth s).1 (blockRest depth s).2 parts := by
  induction depth, s using blockRest.induct with
  | case1 depth => exact ⟨[], nested_nil hdepth⟩
  | case2 depth c =>
    have hlevel := congrArg (depth + ·) (count_mark_singleton c)
    exact ⟨[[c]], (nested_nil hdepth).cons [c] hdepth rfl hlevel⟩
  | case3 depth c d rest hopen _ _ _ ih =>
    obtain ⟨rfl, rfl⟩ : c = '/' ∧ d = '*' := by simpa using hopen
    obtain ⟨parts, h⟩ := ih (Nat.succ_pos depth)
    rw [blockRest_open]
    exact ⟨openMark :: parts, h.cons openMark hdepth rfl rfl⟩
  | case4 depth c d rest _ hclose hone =>
    obtain ⟨rfl, rfl⟩ : c = '*' ∧ d = '/' := by simpa using hclose
    obtain rfl : depth = 1 := Nat.le_antisymm hone hdepth
    rw [blockRest_last hone]
    refine ⟨[closeMark], rfl, rfl, fun front hfront hne => ?_, .inl rfl⟩
    rcases List.prefix_cons_iff.mp hfront with rfl | ⟨more, rfl, hmore⟩
    · exact Nat.one_pos
    · rw [List.prefix_nil.mp hmore] at hne
      exact absurd rfl hne
  | case5 depth c d rest _ hclose hmany _ _ _ ih =>
    obtain ⟨rfl, rfl⟩ : c = '*' ∧ d = '/' := by simpa using hclose
    obtain ⟨parts, h⟩ := ih (by omega)
    rw [blockRest_close hmany]
    refine ⟨closeMark :: parts, h.cons closeMark hdepth rfl ?_⟩
    have hlevel : depth - 1 + 1 = depth + 0 := by omega
    exact hlevel
  | case6 depth c d rest hopen hclose _ _ _ ih =>
    have hopen' : ¬ (c = '/' ∧ d = '*') := by simpa using hopen
    have hclose' : ¬ (c = '*' ∧ d = '/') := by simpa using hclose
    obtain ⟨parts, h⟩ := ih hdepth
    rw [blockRest_plain depth hopen' hclose']
    refine ⟨[c] :: parts, h.cons [c] hdepth ?_ (congrArg (depth + ·) (count_mark_singleton c))⟩
    rw [(delimits_blockRest depth).whole]
    exact commentParts_plain hopen' hclose' rest

/-! ## Strings and character literals -/

/-- What stands inside of a string: characters that are neither quotes nor backslashes, and
backslashes with the character behind them. -/
inductive Inside : List Char → Prop
  | nil : Inside []
  | plain {c : Char} {rest : List Char} (hquote : c ≠ '"') (hslash : c ≠ '\\') (h : Inside rest) :
      Inside (c :: rest)
  | escape (d : Char) {rest : List Char} (h : Inside rest) : Inside ('\\' :: d :: rest)

/-- What is taken of a string: up to the first quote that no backslash takes with it, and to the end
of a text that has none. Then a backslash may come last. -/
inductive Quoted : (taken left : List Char) → Prop
  | closed {inner : List Char} (left : List Char) (h : Inside inner) : Quoted (inner ++ ['"']) left
  | unclosed {taken : List Char} (h : Inside taken) : Quoted taken []
  | cutOff {inner : List Char} (h : Inside inner) : Quoted (inner ++ ['\\']) []

theorem Quoted.plain {c : Char} {taken left : List Char} (hquote : c ≠ '"') (hslash : c ≠ '\\')
    (h : Quoted taken left) : Quoted (c :: taken) left := by
  cases h with
  | closed left h => exact .closed left (.plain hquote hslash h)
  | unclosed h => exact .unclosed (.plain hquote hslash h)
  | cutOff h => exact .cutOff (.plain hquote hslash h)

theorem Quoted.escape (d : Char) {taken left : List Char} (h : Quoted taken left) :
    Quoted ('\\' :: d :: taken) left := by
  cases h with
  | closed left h => exact .closed left (.escape d h)
  | unclosed h => exact .unclosed (.escape d h)
  | cutOff h => exact .cutOff (.escape d h)

theorem quoted_stringRest (s : List Char) : Quoted (stringRest s).1 (stringRest s).2 := by
  induction s using stringRest.induct with
  | case1 => exact .unclosed .nil
  | case2 rest =>
    rw [stringRest_quote]
    exact .closed rest .nil
  | case3 => exact .cutOff .nil
  | case4 d rest _ _ _ _ ih =>
    rw [stringRest_escape]
    exact ih.escape d
  | case5 c rest hquote hslash _ _ _ ih =>
    rw [stringRest_plain hquote hslash]
    exact ih.plain hquote hslash

/-- What a single quote takes with it: a character and the quote behind it, or an escape up to the
next quote behind its first character. The quote of a lifetime takes nothing. -/
inductive Literal : (taken left : List Char) → Prop
  | alone {left : List Char} (hslash : left.head? ≠ some '\\')
    (hquote : left.tail.head? ≠ some '\'') :
      Literal [] left
  | character {c : Char} (hslash : c ≠ '\\') (left : List Char) : Literal [c, '\''] left
  | escape (d : Char) {taken left : List Char} (h : Through ['\''] taken left) :
      Literal ('\\' :: d :: taken) left
  | cutOff : Literal ['\\'] []

theorem literal_quoteRest (s : List Char) : Literal (quoteRest s).1 (quoteRest s).2 := by
  by_cases halone : quoteRest s = ([], s)
  · obtain ⟨hslash, hquote⟩ := quoteRest_eq_nil_iff.mp halone
    rw [halone]
    exact .alone hslash hquote
  · unfold quoteRest at halone ⊢
    split at halone
    · exact .cutOff
    · next d rest => exact .escape d (through_throughQuote rest)
    · next rest hslash => exact .character hslash rest
    · exact absurd rfl halone

/-! ## All of them -/

/-- The comments and literals of each kind, as they start and as they end, with the text that is
left behind them. The byte scans, which start behind the mark that opens a comment or a string, stop
there. -/
inductive Closes : Kind → (text left : List Char) → Prop
  | lineComment {inner left : List Char} (hinner : '\n' ∉ inner)
    (hleft : ∀ c ∈ left.head?, c = '\n') :
      Closes .lineComment ('/' :: '/' :: inner) left
  | blockComment {taken left : List Char} {parts : List (List Char)} (h : Nested 1 taken left parts)
      (hscan : commentSteps 1 (encode (taken ++ left)) = byteLength taken) :
      Closes .blockComment (openMark ++ taken) left
  | string {start taken left : List Char} (hstart : start ∈ [[], ['b'], ['c']])
    (h : Quoted taken left)
      (hscan : stringStop (encode (taken ++ left)) = byteLength taken) :
      Closes .string (start ++ '"' :: taken) left
  | rawString {start taken left : List Char} {hashes : Nat}
      (hstart : start ∈ [['r'], ['b', 'r'], ['c', 'r']])
        (h : Through ('"' :: List.replicate hashes '#') taken left) :
      Closes .string (start ++ (List.replicate hashes '#' ++ '"' :: taken)) left
  | quote {start taken left : List Char} (hstart : start ∈ [[], ['b']]) (h : Literal taken left) :
      Closes .quote (start ++ '\'' :: taken) left

/-- **Comments and literals end at their marks.** -/
theorem Reads.closes {k : Kind} {text left : List Char} (h : Reads k text left)
    (hk : k = .lineComment ∨ k ∈ delimitedKinds) : Closes k text left := by
  rcases hk with rfl | hk
  · generalize hline : Kind.lineComment = k at h
    cases h with
    | lineComment htaken hleft => exact .lineComment htaken hleft
    | delimited ho => cases ho <;> cases hline
    | mark =>
      unfold markKind at hline
      grind
    | _ => cases hline
  · obtain ⟨o, taken, f, ho, rfl, hf⟩ := h.opens hk
    have htaken := congrArg Prod.fst hf
    have hleft := congrArg Prod.snd hf
    dsimp only at htaken hleft
    cases ho with
    | blockComment =>
      obtain ⟨parts, hparts⟩ := exists_nested (taken ++ left) Nat.one_pos
      have hscan := commentSteps_encode 1 (taken ++ left)
      rw [htaken] at hscan
      rw [htaken, hleft] at hparts
      exact .blockComment hparts hscan
    | @string start hstart =>
      have hquoted := quoted_stringRest (taken ++ left)
      have hscan := stringStop_encode (taken ++ left)
      rw [htaken] at hscan
      rw [htaken, hleft] at hquoted
      rw [List.append_assoc, List.singleton_append]
      exact .string hstart hquoted hscan
    | @rawString start hashes hstart =>
      have hthrough := through_rawRest hashes (taken ++ left)
      rw [htaken, hleft] at hthrough
      rw [List.append_assoc, List.append_assoc, List.singleton_append]
      exact .rawString hstart hthrough
    | @quote start hstart =>
      have hliteral := literal_quoteRest (taken ++ left)
      rw [htaken, hleft] at hliteral
      rw [List.append_assoc, List.singleton_append]
      exact .quote hstart hliteral

end LiveDoc.Item.Piece
