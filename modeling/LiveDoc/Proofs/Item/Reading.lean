import LiveDoc.Item.Piece
import LiveDoc.Proofs.Text.MaximalRun

/-!
# Reading one piece

What stands at the start of a text, told by the piece itself and by what is left behind it.

* `Delimits` — comments and literals that are closed end where they end, whatever comes behind;
* `Reads` — every kind of piece, with the condition on what is left that makes it end there;
* `Reads.read`, `reads_of_read` — the reader finds exactly these pieces.

Since only the first characters of what is left count, the front of a text reads as it did in the
whole text (`Reads.cut`), a blank behind what is left changes nothing (`Reads.extend`), and a blank
ends a piece as well as anything else that did (`Reads.blank_behind`).
-/

namespace LiveDoc.Item.Piece

/-! ## Closed comments and literals -/

/-- A reader that takes a text up to an end mark, and everything when there is none. What it takes
up to its end mark does not depend on what comes behind. -/
structure Delimits (f : List Char → List Char × List Char) : Prop where
  whole : ∀ s, (f s).1 ++ (f s).2 = s
  stays : ∀ {a t : List Char}, f (a ++ t) = (a, t) → t ≠ [] → ∀ t', f (a ++ t') = (a, t')

theorem Delimits.append_eq {f : List Char → List Char × List Char} (hf : Delimits f)
    {s taken left : List Char} (h : f s = (taken, left)) : s = taken ++ left := by
  have hwhole := hf.whole s
  rw [h] at hwhole
  exact hwhole.symm

/-- The front of a text reads as it did in the whole text. -/
theorem Delimits.cut {f : List Char → List Char × List Char} (hf : Delimits f)
    {a u t : List Char} (h : f (a ++ (u ++ t)) = (a, u ++ t)) : f (a ++ u) = (a, u) := by
  by_cases hne : u ++ t = []
  · obtain ⟨rfl, rfl⟩ := List.append_eq_nil_iff.mp hne
    exact h
  · exact hf.stays h hne u

/-- One character more at the front. -/
theorem eq_of_cons {c : Char} {x : List Char × List Char} {a t : List Char}
    (h : (c :: x.1, x.2) = (c :: a, t)) : x = (a, t) := by
  obtain ⟨hfront, hback⟩ := Prod.mk.inj h
  exact Prod.ext (List.cons.inj hfront).2 hback

theorem throughQuote_cons (c : Char) (rest : List Char) : throughQuote (c :: rest) =
    if c = '\'' then ([c], rest) else (c :: (throughQuote rest).1, (throughQuote rest).2) := rfl

theorem delimits_throughQuote : Delimits throughQuote where
  whole := by
    intro s
    induction s with
    | nil => rfl
    | cons c rest ih =>
      rw [throughQuote_cons]
      split
      · rfl
      · exact congrArg (c :: ·) ih
  stays := by
    intro a t h ht t'
    induction a with
    | nil =>
      -- something is always taken
      obtain ⟨c, t, rfl⟩ := List.exists_cons_of_ne_nil ht
      rw [List.nil_append, throughQuote_cons] at h
      split at h <;> cases h
    | cons c a ih =>
      rw [List.cons_append, throughQuote_cons] at h ⊢
      by_cases hc : c = '\''
      · rw [if_pos hc] at h ⊢
        obtain ⟨ha, -⟩ := Prod.mk.inj h
        rw [← (List.cons.inj ha).2, List.nil_append]
      · rw [if_neg hc] at h ⊢
        rw [ih (eq_of_cons h)]

theorem stringRest_quote (rest : List Char) : stringRest ('"' :: rest) = (['"'], rest) := by
  cases rest <;> rfl

theorem stringRest_escape (d : Char) (rest : List Char) : stringRest ('\\' :: d :: rest) =
    ('\\' :: d :: (stringRest rest).1, (stringRest rest).2) := rfl

theorem stringRest_plain {c : Char} (hquote : c ≠ '"') (hslash : c ≠ '\\') (rest : List Char) :
    stringRest (c :: rest) = (c :: (stringRest rest).1, (stringRest rest).2) := by
  rw [stringRest.eq_def]
  simp only [if_neg hquote, if_neg hslash]

theorem delimits_stringRest : Delimits stringRest where
  whole := by
    intro s
    induction s using stringRest.induct with
    | case1 => rfl
    | case2 rest => rw [stringRest_quote]; rfl
    | case3 => rfl
    | case4 d rest _ _ _ _ ih =>
      rw [stringRest_escape]
      exact congrArg (fun more => '\\' :: d :: more) ih
    | case5 c rest hquote hslash _ _ _ ih =>
      rw [stringRest_plain hquote hslash]
      exact congrArg (c :: ·) ih
  stays := by
    intro a t h ht t'
    induction a using stringRest.induct with
    | case1 =>
      obtain ⟨c, t, rfl⟩ := List.exists_cons_of_ne_nil ht
      rw [List.nil_append, stringRest.eq_def] at h
      dsimp only at h
      repeat' split at h
      all_goals cases h
    | case2 rest =>
      rw [List.cons_append, stringRest_quote] at h ⊢
      obtain ⟨ha, -⟩ := Prod.mk.inj h
      rw [← (List.cons.inj ha).2, List.nil_append]
    | case3 =>
      -- a backslash never stands alone in front of something
      obtain ⟨d, t, rfl⟩ := List.exists_cons_of_ne_nil ht
      rw [List.cons_append, List.nil_append, stringRest_escape] at h
      cases h
    | case4 d rest _ _ _ _ ih =>
      rw [List.cons_append, List.cons_append, stringRest_escape] at h ⊢
      obtain ⟨ha, hback⟩ := Prod.mk.inj h
      have hrest : stringRest (rest ++ t) = (rest, t) :=
        Prod.ext (List.cons.inj (List.cons.inj ha).2).2 hback
      rw [ih hrest]
    | case5 c rest hquote hslash _ _ _ ih =>
      rw [List.cons_append, stringRest_plain hquote hslash] at h ⊢
      rw [ih (eq_of_cons h)]

theorem rawRest_cons (hashes : Nat) (c : Char) (rest : List Char) : rawRest hashes (c :: rest) =
    if c = '"' ∧ List.replicate hashes '#' <+: rest then (c :: rest.take hashes, rest.drop hashes)
    else (c :: (rawRest hashes rest).1, (rawRest hashes rest).2) := by
  rw [rawRest]
  simp only [Bool.and_eq_true, decide_eq_true_eq, List.isPrefixOf_iff_prefix]

/-- The end mark of a raw string is a part of it. -/
theorem lt_length_of_rawRest {hashes : Nat} {a t : List Char}
    (h : rawRest hashes (a ++ t) = (a, t)) (ht : t ≠ []) : hashes < a.length := by
  induction a with
  | nil =>
    obtain ⟨c, t, rfl⟩ := List.exists_cons_of_ne_nil ht
    rw [List.nil_append, rawRest_cons] at h
    split at h <;> cases h
  | cons c a ih =>
    rw [List.cons_append, rawRest_cons] at h
    split at h
    · next hclose =>
      obtain ⟨ha, -⟩ := Prod.mk.inj h
      have hlength := congrArg List.length (List.cons.inj ha).2
      have hle := hclose.2.length_le
      rw [List.length_take] at hlength
      rw [List.length_replicate] at hle
      rw [List.length_cons]
      omega
    · have hlt := ih (eq_of_cons h)
      rw [List.length_cons]
      omega

theorem delimits_rawRest (hashes : Nat) : Delimits (rawRest hashes) where
  whole := by
    intro s
    induction s with
    | nil => rfl
    | cons c rest ih =>
      rw [rawRest_cons]
      split
      · exact congrArg (c :: ·) (List.take_append_drop hashes rest)
      · exact congrArg (c :: ·) ih
  stays := by
    intro a t h ht t'
    induction a with
    | nil => exact absurd (lt_length_of_rawRest h ht) (Nat.not_lt_zero _)
    | cons c a ih =>
      have hlt := lt_length_of_rawRest h ht
      rw [List.length_cons] at hlt
      -- whether the end mark stands here is seen in what is taken
      have hmark : ∀ more, List.replicate hashes '#' <+: a ++ more ↔
          List.replicate hashes '#' <+: a := by
        intro more
        refine ⟨fun hmore => ?_, fun hmore => hmore.trans (List.prefix_append a more)⟩
        refine List.prefix_of_prefix_length_le hmore (List.prefix_append a more) ?_
        rw [List.length_replicate]
        omega
      rw [List.cons_append, rawRest_cons] at h ⊢
      simp only [hmark] at h ⊢
      split at h
      · next hclose =>
        obtain ⟨ha, -⟩ := Prod.mk.inj h
        have hlength := congrArg List.length (List.cons.inj ha).2
        rw [List.length_take, List.length_append] at hlength
        have htlength := List.length_pos_iff.mpr ht
        rw [if_pos hclose, List.take_append_of_le_length (by omega),
          List.take_of_length_le (by omega), List.drop_append_of_le_length (by omega),
          List.drop_of_length_le (by omega), List.nil_append]
      · next hclose => rw [if_neg hclose, ih (eq_of_cons h)]

theorem blockRest_open (depth : Nat) (rest : List Char) : blockRest depth ('/' :: '*' :: rest) =
    ('/' :: '*' :: (blockRest (depth + 1) rest).1, (blockRest (depth + 1) rest).2) := by
  rw [blockRest, if_pos (by decide)]

theorem blockRest_last {depth : Nat} (h : depth ≤ 1) (rest : List Char) :
    blockRest depth ('*' :: '/' :: rest) = (['*', '/'], rest) := by
  rw [blockRest, if_neg (by decide), if_pos (by decide), if_pos h]

theorem blockRest_close {depth : Nat} (h : ¬ depth ≤ 1) (rest : List Char) :
    blockRest depth ('*' :: '/' :: rest) =
      ('*' :: '/' :: (blockRest (depth - 1) rest).1, (blockRest (depth - 1) rest).2) := by
  rw [blockRest, if_neg (by decide), if_pos (by decide), if_neg h]

theorem blockRest_plain (depth : Nat) {c d : Char} (hopen : ¬ (c = '/' ∧ d = '*'))
    (hclose : ¬ (c = '*' ∧ d = '/')) (rest : List Char) : blockRest depth (c :: d :: rest) =
      (c :: (blockRest depth (d :: rest)).1, (blockRest depth (d :: rest)).2) := by
  rw [blockRest, if_neg (by simpa using hopen), if_neg (by simpa using hclose)]

/-- Something is always taken of a comment. -/
theorem blockRest_ne_nil (depth : Nat) (c : Char) (rest : List Char) :
    (blockRest depth (c :: rest)).1 ≠ [] := by
  cases rest with
  | nil => exact List.cons_ne_nil c []
  | cons d rest =>
    rw [blockRest]
    repeat' split
    all_goals simp

theorem delimits_blockRest (depth : Nat) : Delimits (blockRest depth) where
  whole := by
    intro s
    induction depth, s using blockRest.induct with
    | case1 => rfl
    | case2 => rfl
    | case3 depth c d rest hopen _ _ _ ih =>
      obtain ⟨rfl, rfl⟩ : c = '/' ∧ d = '*' := by simpa using hopen
      rw [blockRest_open]
      exact congrArg (fun more => '/' :: '*' :: more) ih
    | case4 depth c d rest _ hclose hdepth =>
      obtain ⟨rfl, rfl⟩ : c = '*' ∧ d = '/' := by simpa using hclose
      rw [blockRest_last hdepth]
      rfl
    | case5 depth c d rest _ hclose hdepth _ _ _ ih =>
      obtain ⟨rfl, rfl⟩ : c = '*' ∧ d = '/' := by simpa using hclose
      rw [blockRest_close hdepth]
      exact congrArg (fun more => '*' :: '/' :: more) ih
    | case6 depth c d rest hopen hclose _ _ _ ih =>
      rw [blockRest_plain depth (by simpa using hopen) (by simpa using hclose)]
      exact congrArg (c :: ·) ih
  stays := by
    intro a t h ht t'
    obtain ⟨e, t, rfl⟩ := List.exists_cons_of_ne_nil ht
    induction depth, a using blockRest.induct with
    | case1 depth => exact absurd (congrArg Prod.fst h) (blockRest_ne_nil depth e t)
    | case2 depth c =>
      -- a comment does not end behind its first character
      have hempty : (blockRest depth (e :: t)).1 = [] := by
        rw [List.singleton_append, blockRest] at h
        split at h
        · cases h
        · split at h
          · split at h <;> cases h
          · exact congrArg Prod.fst (eq_of_cons h)
      exact absurd hempty (blockRest_ne_nil depth e t)
    | case3 depth c d rest hopen _ _ _ ih =>
      obtain ⟨rfl, rfl⟩ : c = '/' ∧ d = '*' := by simpa using hopen
      rw [List.cons_append, List.cons_append, blockRest_open] at h ⊢
      rw [ih (eq_of_cons (eq_of_cons h))]
    | case4 depth c d rest _ hclose hdepth =>
      obtain ⟨rfl, rfl⟩ : c = '*' ∧ d = '/' := by simpa using hclose
      rw [List.cons_append, List.cons_append, blockRest_last hdepth] at h ⊢
      obtain ⟨ha, -⟩ := Prod.mk.inj h
      rw [← (List.cons.inj (List.cons.inj ha).2).2, List.nil_append]
    | case5 depth c d rest _ hclose hdepth _ _ _ ih =>
      obtain ⟨rfl, rfl⟩ : c = '*' ∧ d = '/' := by simpa using hclose
      rw [List.cons_append, List.cons_append, blockRest_close hdepth] at h ⊢
      rw [ih (eq_of_cons (eq_of_cons h))]
    | case6 depth c d rest hopen hclose _ _ _ ih =>
      rw [List.cons_append, List.cons_append,
        blockRest_plain depth (by simpa using hopen) (by simpa using hclose)] at h ⊢
      have hrest : blockRest depth (d :: rest ++ e :: t) = (d :: rest, e :: t) := eq_of_cons h
      rw [← List.cons_append, ih hrest]

/-! ## Quotes -/

/-- The quote of a lifetime stands alone. -/
theorem quoteRest_eq_nil_iff {t : List Char} :
    quoteRest t = ([], t) ↔ t.head? ≠ some '\\' ∧ t.tail.head? ≠ some '\'' := by
  unfold quoteRest
  split
  · simp
  · simp
  · next hslash => simp
  · next hone hescape hpair =>
    simp only [true_iff]
    refine ⟨?_, ?_⟩
    · intro hhead
      obtain ⟨rest, hrest⟩ := List.head?_eq_some_iff.mp hhead
      cases rest with
      | nil => exact hone hrest
      | cons c rest => exact hescape c rest hrest
    · intro htail
      obtain ⟨more, hmore⟩ := List.head?_eq_some_iff.mp htail
      cases t with
      | nil => cases hmore
      | cons c rest => exact hpair c more (congrArg (c :: ·) hmore)

theorem quoteRest_append (s : List Char) : (quoteRest s).1 ++ (quoteRest s).2 = s := by
  unfold quoteRest
  split
  · rfl
  · next c rest => exact congrArg (fun more => '\\' :: c :: more) (delimits_throughQuote.whole rest)
  · rfl
  · rfl

/-- A character literal ends where it ends. -/
theorem quoteRest_stays {a t : List Char} (h : quoteRest (a ++ t) = (a, t)) (ha : a ≠ [])
    (ht : t ≠ []) (t' : List Char) : quoteRest (a ++ t') = (a, t') := by
  obtain ⟨c, a, rfl⟩ := List.exists_cons_of_ne_nil ha
  by_cases hc : c = '\\'
  · subst hc
    cases a with
    | nil =>
      obtain ⟨e, t, rfl⟩ := List.exists_cons_of_ne_nil ht
      have htaken := congrArg Prod.fst h
      rw [List.singleton_append, quoteRest] at htaken
      cases htaken
    | cons d a =>
      rw [List.cons_append, List.cons_append, quoteRest] at h ⊢
      have hrest : throughQuote (a ++ t) = (a, t) := eq_of_cons (eq_of_cons h)
      rw [delimits_throughQuote.stays hrest ht]
  · by_cases hquote : ∃ more, a ++ t = '\'' :: more
    · obtain ⟨more, hmore⟩ := hquote
      rw [List.cons_append, hmore, quoteRest.eq_3 c more hc] at h
      obtain ⟨htaken, -⟩ := Prod.mk.inj h
      obtain rfl : ['\''] = a := (List.cons.inj htaken).2
      exact quoteRest.eq_3 c t' hc
    · -- then nothing is taken
      have hnil : quoteRest (c :: (a ++ t)) = ([], c :: (a ++ t)) := by
        rw [quoteRest_eq_nil_iff]
        refine ⟨fun hhead => hc (Option.some.inj hhead), fun htail => hquote ?_⟩
        exact List.head?_eq_some_iff.mp htail
      rw [List.cons_append, hnil] at h
      cases h

/-! ## How delimited pieces start -/

/-- The ways in which a comment or a literal starts, and the reader of the rest. -/
inductive Opens : Kind → List Char → (List Char → List Char × List Char) → Prop
  | blockComment : Opens .blockComment ['/', '*'] (blockRest 1)
  | string {p : List Char} : p ∈ [[], ['b'], ['c']] → Opens .string (p ++ ['"']) stringRest
  | rawString {p : List Char} {n : Nat} : p ∈ [['r'], ['b', 'r'], ['c', 'r']] →
      Opens .string (p ++ (List.replicate n '#' ++ ['"'])) (rawRest n)
  | quote {p : List Char} : p ∈ [[], ['b']] → Opens .quote (p ++ ['\'']) quoteRest

variable {k : Kind} {o : List Char} {f : List Char → List Char × List Char}

theorem Opens.append_eq (h : Opens k o f) {s taken left : List Char} (hf : f s = (taken, left)) :
    s = taken ++ left := by
  cases h with
  | blockComment => exact (delimits_blockRest 1).append_eq hf
  | string => exact delimits_stringRest.append_eq hf
  | rawString => exact (delimits_rawRest _).append_eq hf
  | quote =>
    have happend := quoteRest_append s
    rw [hf] at happend
    exact happend.symm

/-- A comment or literal that something follows ends where it ends, but for a quote that stands
alone. -/
theorem Opens.stays (h : Opens k o f) {a t : List Char} (hf : f (a ++ t) = (a, t)) (ht : t ≠ [])
    (ha : k = .quote → a ≠ []) (t' : List Char) : f (a ++ t') = (a, t') := by
  cases h with
  | blockComment => exact (delimits_blockRest 1).stays hf ht t'
  | string => exact delimits_stringRest.stays hf ht t'
  | rawString => exact (delimits_rawRest _).stays hf ht t'
  | quote => exact quoteRest_stays hf (ha rfl) ht t'

/-! ## Words and marks -/

/-- What may not stand behind a word or a mark, because the two together start something longer. -/
inductive Continues : List Char → List Char → Prop
  | rawString {w : List Char} (n : Nat) : w ∈ [['r'], ['b', 'r'], ['c', 'r']] →
      Continues w (List.replicate n '#' ++ ['"'])
  | string {w : List Char} : w ∈ [['b'], ['c']] → Continues w ['"']
  | quote : Continues ['b'] ['\'']
  | rawWord {c : Char} : isWordStart c → Continues ['r'] ['#', c]
  | lineComment : Continues ['/'] ['/']
  | blockComment : Continues ['/'] ['*']
  | arrow {c : Char} : c = '-' ∨ c = '=' → Continues [c] ['>']

/-- The kind of a single character that starts nothing longer. -/
def markKind (c : Char) : Kind :=
  if c = '{' || c = '(' || c = '[' then .open
  else if c = '}' || c = ')' || c = ']' then .close
  else if c = ';' then .semicolon
  else if c = '<' then .less
  else if c = '>' then .greater
  else if c = '#' then .pound
  else if c = '!' then .bang
  else .unknown

/-- A character that can only be a piece of its own, if it is not the first of something longer. -/
def IsMark (c : Char) : Prop :=
  isSpace c = false ∧ c ≠ '"' ∧ c ≠ '\'' ∧ isWordStart c = false ∧ c.isDigit = false

/-- The pieces of each kind, with what must hold of the text that is left behind them. -/
inductive Reads : Kind → List Char → List Char → Prop
  | blank {c : Char} {taken left : List Char} : isSpace c → (∀ d ∈ taken, isSpace d) →
      (∀ d ∈ left.head?, isSpace d = false) → Reads .blank (c :: taken) left
  | lineComment {taken left : List Char} : '\n' ∉ taken → (∀ d ∈ left.head?, d = '\n') →
      Reads .lineComment ('/' :: '/' :: taken) left
  | delimited {k : Kind} {o taken left : List Char} {f : List Char → List Char × List Char} :
      Opens k o f → f (taken ++ left) = (taken, left) → Reads k (o ++ taken) left
  | word {c : Char} {taken left : List Char} : isWordStart c → (∀ d ∈ taken, isWordPart d) →
      (∀ d ∈ left.head?, isWordPart d = false) →
      (∀ o, Continues (c :: taken) o → ¬ o <+: left) → Reads .word (c :: taken) left
  | rawWord {c : Char} {taken left : List Char} : isWordStart c → (∀ d ∈ taken, isWordPart d) →
      (∀ d ∈ left.head?, isWordPart d = false) → Reads .word ('r' :: '#' :: c :: taken) left
  | number {c : Char} {taken left : List Char} : c.isDigit → (∀ d ∈ taken, isWordPart d) →
      (∀ d ∈ left.head?, isWordPart d = false) → Reads .number (c :: taken) left
  | arrow {c : Char} {left : List Char} : c = '-' ∨ c = '=' → Reads .arrow [c, '>'] left
  | mark {c : Char} {left : List Char} : IsMark c → (∀ o, Continues [c] o → ¬ o <+: left) →
      Reads (markKind c) [c] left

/-! ## The reader -/

theorem isSpace_iff {c : Char} :
    isSpace c = true ↔ c ∈ [' ', '\t', '\r', '\n', '\x0c'] := by
  simp only [isSpace, Bool.or_eq_true, decide_eq_true_eq, List.mem_cons, List.not_mem_nil, or_false,
    or_assoc]

/-- Blanks start nothing else. -/
theorem of_isSpace {c : Char} (h : isSpace c = true) :
    isWordPart c = false ∧ c ∉ ['/', '"', '\'', '\\', '#', '*', '>', '-', '='] := by
  rw [isSpace_iff] at h
  simp only [List.mem_cons, List.not_mem_nil, or_false] at h
  rcases h with rfl | rfl | rfl | rfl | rfl <;> decide

/-- The characters of words are ASCII characters. -/
theorem toNat_of_isWordPart {c : Char} (h : isWordPart c = true) :
    48 ≤ c.toNat ∧ c.toNat ≤ 122 := by
  rw [isWordPart, Bool.or_eq_true, Char.isAlphanum, Bool.or_eq_true, Text.isAlpha_iff,
    Text.isDigit_iff, decide_eq_true_eq] at h
  rcases h with (hletter | hdigit) | rfl
  · omega
  · omega
  · decide

theorem of_isWordStart {c : Char} (h : isWordStart c = true) :
    isWordPart c = true ∧ isSpace c = false ∧ c ∉ ['/', '"', '\''] := by
  have hpart : isWordPart c = true := by
    unfold isWordStart at h
    unfold isWordPart Char.isAlphanum
    rcases Bool.or_eq_true_iff.mp h with halpha | hunderscore
    · rw [halpha, Bool.true_or, Bool.true_or]
    · rw [hunderscore, Bool.or_true]
  have hspace : isSpace c = false := by
    rw [Bool.eq_false_iff]
    intro hc
    rw [(of_isSpace hc).1] at hpart
    cases hpart
  refine ⟨hpart, hspace, ?_⟩
  intro hc
  simp only [List.mem_cons, List.not_mem_nil, or_false] at hc
  rcases hc with rfl | rfl | rfl <;> cases h

theorem read_blank {c : Char} (h : isSpace c = true) (rest : List Char) :
    read c rest = (⟨.blank, c :: (rest.span isSpace).1⟩, (rest.span isSpace).2) := by
  rw [read, if_pos h]

/-- Words and what starts like a word. -/
theorem read_word {c : Char} (h : isWordStart c = true) (rest : List Char) :
    read c rest = wordPiece (c :: (rest.span isWordPart).1) (rest.span isWordPart).2 := by
  obtain ⟨-, hspace, hother⟩ := of_isWordStart h
  simp only [List.mem_cons, List.not_mem_nil, or_false, not_or] at hother
  obtain ⟨hslash, hdouble, hsingle⟩ := hother
  rw [read, if_neg (by simp [hspace]), if_neg (by simp [hslash]), if_neg (by simp [hslash]),
    if_neg hdouble, if_neg hsingle, if_pos h]

theorem hashCount_replicate (n : Nat) {after : List Char} (h : after.head? ≠ some '#') :
    hashCount (List.replicate n '#' ++ after) = n := by
  unfold hashCount
  rw [List.takeWhile_append_of_pos (by simp)]
  cases after with
  | nil => simp
  | cons c after =>
    have hc : c ≠ '#' := fun hc => h (congrArg some hc)
    simp [hc]

theorem wordPiece_rawString {w : List Char} (h : w ∈ [['r'], ['b', 'r'], ['c', 'r']]) (n : Nat)
    (s : List Char) : wordPiece w (List.replicate n '#' ++ '"' :: s) =
      (⟨.string, w ++ (List.replicate n '#' ++ ['"']) ++ (rawRest n s).1⟩, (rawRest n s).2) := by
  have hraw : (w = ['r'] || w = ['b', 'r'] || w = ['c', 'r']) = true := by
    simpa [or_assoc] using h
  have hcount : hashCount (List.replicate n '#' ++ '"' :: s) = n :=
    hashCount_replicate n (by simp)
  have hdrop : (List.replicate n '#' ++ '"' :: s).drop n = '"' :: s := by
    simp
  have htake : (List.replicate n '#' ++ '"' :: s).take (n + 1) = List.replicate n '#' ++ ['"'] := by
    rw [List.take_append]
    simp
  have hbehind : (List.replicate n '#' ++ '"' :: s).drop (n + 1) = s := by
    rw [← List.drop_drop, hdrop]
    rfl
  unfold wordPiece
  simp only [hcount, hdrop, hraw, htake, hbehind, List.head?_cons, decide_true, Bool.and_true,
    if_true]

theorem read_of_opens {c : Char} (h : Opens k (c :: o) f) (s : List Char) :
    read c (o ++ s) = (⟨k, c :: (o ++ (f s).1)⟩, (f s).2) := by
  generalize hco : c :: o = co at h
  cases h with
  | blockComment =>
    obtain ⟨rfl, rfl⟩ := List.cons.inj hco
    rfl
  | @string p hp =>
    simp only [List.mem_cons, List.not_mem_nil, or_false] at hp
    rcases hp with rfl | rfl | rfl
    all_goals
      obtain ⟨rfl, rfl⟩ := List.cons.inj hco
      rfl
  | @rawString p n hp =>
    -- a raw string starts like a word
    obtain ⟨w, rfl, hw⟩ : ∃ w, p = c :: w ∧ ∀ d ∈ w, isWordPart d = true := by
      simp only [List.mem_cons, List.not_mem_nil, or_false] at hp
      rcases hp with rfl | rfl | rfl
      all_goals
        obtain ⟨rfl, rfl⟩ := List.cons.inj hco
        exact ⟨_, rfl, List.all_eq_true.mp (by decide)⟩
    have hc : isWordStart c = true := by
      simp only [List.mem_cons, List.not_mem_nil, or_false] at hp
      rcases hp with hp | hp | hp
      all_goals
        rw [(List.cons.inj hp).1]
        rfl
    obtain rfl : o = w ++ (List.replicate n '#' ++ ['"']) := (List.cons.inj hco).2
    have hstop : ∀ d ∈ (List.replicate n '#' ++ '"' :: s).head?, isWordPart d = false := by
      cases n with
      | zero => simp [isWordPart]
      | succ n => simp [List.replicate_succ, isWordPart]
    have hspan : (w ++ (List.replicate n '#' ++ '"' :: s)).span isWordPart =
        (w, List.replicate n '#' ++ '"' :: s) := Text.span_append hw hstop
    have hrest : w ++ (List.replicate n '#' ++ ['"']) ++ s =
        w ++ (List.replicate n '#' ++ '"' :: s) := by simp
    rw [hrest, read_word hc, hspan, wordPiece_rawString hp]
    rfl
  | @quote p hp =>
    simp only [List.mem_cons, List.not_mem_nil, or_false] at hp
    rcases hp with rfl | rfl
    all_goals
      obtain ⟨rfl, rfl⟩ := List.cons.inj hco
      rfl

theorem Opens.exists_cons (h : Opens k o f) : ∃ c more, o = c :: more := by
  cases h with
  | blockComment => exact ⟨_, _, rfl⟩
  | @string p => cases p <;> exact ⟨_, _, rfl⟩
  | @rawString p n hp =>
    cases p with
    | nil => simp at hp
    | cons c p => exact ⟨_, _, rfl⟩
  | @quote p => cases p <;> exact ⟨_, _, rfl⟩

theorem singleton_isPrefix {c : Char} {s : List Char} : [c] <+: s ↔ s.head? = some c := by
  rw [List.head?_eq_some_iff]
  exact exists_congr fun more => eq_comm

/-- What stands behind the hashes at the start of a text. -/
theorem replicate_hashCount (s : List Char) :
    List.replicate (hashCount s) '#' ++ s.drop (hashCount s) = s := by
  have htaken : s.takeWhile (· = '#') = List.replicate (hashCount s) '#' :=
    List.eq_replicate_iff.mpr ⟨rfl, fun d hd =>
      of_decide_eq_true (List.all_eq_true.mp List.all_takeWhile d hd)⟩
  have hfront : s.take (hashCount s) = s.takeWhile (· = '#') :=
    (List.prefix_iff_eq_take.mp (List.takeWhile_prefix _)).symm
  rw [← htaken, ← hfront, List.take_append_drop]

/-- A word that nothing behind it continues is a piece. -/
theorem wordPiece_word {w after : List Char} (h : ∀ o, Continues w o → ¬ o <+: after) :
    wordPiece w after = (⟨.word, w⟩, after) := by
  have hraw : ¬ (((w = ['r'] || w = ['b', 'r'] || w = ['c', 'r']) &&
      (after.drop (hashCount after)).head? = some '"') = true) := by
    intro hraw
    rw [Bool.and_eq_true] at hraw
    have hw : w ∈ [['r'], ['b', 'r'], ['c', 'r']] := by simpa [or_assoc] using hraw.1
    refine h _ (.rawString (hashCount after) hw) ?_
    obtain ⟨more, hmore⟩ := List.head?_eq_some_iff.mp (of_decide_eq_true hraw.2)
    refine ⟨more, ?_⟩
    rw [List.append_assoc, List.singleton_append, ← hmore, replicate_hashCount]
  unfold wordPiece
  dsimp only
  rw [if_neg hraw]
  cases after with
  | nil => rfl
  | cons c rest =>
    have hstring : ¬ ((c = '"' && (w = ['b'] || w = ['c'])) = true) := by
      intro hstring
      simp only [Bool.and_eq_true, Bool.or_eq_true, decide_eq_true_eq] at hstring
      obtain ⟨rfl, hw⟩ := hstring
      exact h _ (.string (by simpa using hw)) (by simp)
    have hquote : ¬ ((c = '\'' && w = ['b']) = true) := by
      intro hquote
      simp only [Bool.and_eq_true, decide_eq_true_eq] at hquote
      obtain ⟨rfl, rfl⟩ := hquote
      exact h _ .quote (by simp)
    have hrawWord : ¬ ((c = '#' && w = ['r'] && rest.head?.any isWordStart) = true) := by
      intro hrawWord
      simp only [Bool.and_eq_true, decide_eq_true_eq] at hrawWord
      obtain ⟨⟨rfl, rfl⟩, hany⟩ := hrawWord
      cases rest with
      | nil => cases hany
      | cons d rest => exact h _ (.rawWord (c := d) hany) (by simp)
    dsimp only
    rw [if_neg hstring, if_neg hquote, if_neg hrawWord]

/-- The mark of a raw identifier belongs to the word. -/
theorem wordPiece_rawWord {c : Char} (h : isWordStart c = true) (rest : List Char) :
    wordPiece ['r'] ('#' :: c :: rest) =
      (⟨.word, 'r' :: '#' :: c :: (rest.span isWordPart).1⟩, (rest.span isWordPart).2) := by
  obtain ⟨hpart, -, hother⟩ := of_isWordStart h
  have hne : c ≠ '#' := by
    rintro rfl
    cases h
  have hdouble : c ≠ '"' := fun hc => hother (by simp [hc])
  have hcount : hashCount ('#' :: c :: rest) = 1 := by
    simp [hashCount, hne]
  have hspan : (c :: rest).span isWordPart =
      (c :: (rest.span isWordPart).1, (rest.span isWordPart).2) := by
    rw [List.span_eq_takeWhile_dropWhile, List.span_eq_takeWhile_dropWhile,
      List.takeWhile_cons_of_pos hpart, List.dropWhile_cons_of_pos hpart]
  unfold wordPiece
  simp only [hcount, List.drop_succ_cons, List.drop_zero, List.head?_cons, Option.some.injEq,
    hdouble, decide_false, Bool.and_false, Bool.false_eq_true, if_false, Option.any_some, h, hspan]
  rfl

theorem of_isDigit {c : Char} (h : c.isDigit = true) :
    isSpace c = false ∧ c ∉ ['/', '"', '\''] ∧ isWordStart c = false := by
  refine ⟨?_, ?_, ?_⟩
  · rw [Bool.eq_false_iff]
    intro hspace
    have hdigit : ∀ d ∈ [' ', '\t', '\r', '\n', '\x0c'], ¬ d.isDigit = true :=
      List.any_eq_false.mp (by decide)
    exact hdigit c (isSpace_iff.mp hspace) h
  · intro hc
    have hdigit : ∀ d ∈ ['/', '"', '\''], ¬ d.isDigit = true := List.any_eq_false.mp (by decide)
    exact hdigit c hc h
  · have hscore : c ≠ '_' := by
      rintro rfl
      cases h
    rw [isWordStart, Text.isAlpha_of_isDigit h, Bool.false_or]
    exact decide_eq_false hscore

/-- **A piece is read wherever the text behind it lets it end.** -/
theorem Reads.read {text left : List Char} (h : Reads k text left) :
    ∃ c a, text = c :: a ∧ Piece.read c (a ++ left) = (⟨k, text⟩, left) := by
  cases h with
  | @blank c taken _ hc htaken hleft =>
    refine ⟨c, taken, rfl, ?_⟩
    rw [read_blank hc, Text.span_append htaken hleft]
  | @lineComment taken _ htaken hleft =>
    refine ⟨'/', '/' :: taken, rfl, ?_⟩
    have hspan : ('/' :: taken ++ left).span (· ≠ '\n') = ('/' :: taken, left) := by
      refine Text.span_append ?_ ?_
      · intro d hd
        refine decide_eq_true ?_
        rintro rfl
        rcases List.mem_cons.mp hd with hd | hd
        · cases hd
        · exact htaken hd
      · intro d hd
        simpa using hleft d hd
    have hread : Piece.read '/' ('/' :: taken ++ left) =
        (⟨.lineComment, '/' :: (('/' :: taken ++ left).span (· ≠ '\n')).1⟩,
          (('/' :: taken ++ left).span (· ≠ '\n')).2) := rfl
    rw [hread, hspan]
  | @delimited _ o taken _ f ho hf =>
    obtain ⟨c, more, rfl⟩ := ho.exists_cons
    refine ⟨c, more ++ taken, rfl, ?_⟩
    rw [List.append_assoc, read_of_opens ho, hf]
    rfl
  | @word c taken _ hc htaken hleft hcontinues =>
    refine ⟨c, taken, rfl, ?_⟩
    rw [read_word hc, Text.span_append htaken hleft, wordPiece_word hcontinues]
  | @rawWord c taken _ hc htaken hleft =>
    refine ⟨'r', '#' :: c :: taken, rfl, ?_⟩
    have hspan : ([] ++ '#' :: c :: (taken ++ left)).span isWordPart =
        ([], '#' :: c :: (taken ++ left)) := by
      refine Text.span_append (fun d hd => nomatch hd) ?_
      simp [isWordPart]
    rw [List.nil_append] at hspan
    have hread : Piece.read 'r' ('#' :: c :: taken ++ left) = _ := read_word (by rfl) _
    rw [hread, List.cons_append, List.cons_append, hspan, wordPiece_rawWord hc,
      Text.span_append htaken hleft]
  | @number c taken _ hc htaken hleft =>
    refine ⟨c, taken, rfl, ?_⟩
    obtain ⟨hspace, hother, hword⟩ := of_isDigit hc
    simp only [List.mem_cons, List.not_mem_nil, or_false, not_or] at hother
    obtain ⟨hslash, hdouble, hsingle⟩ := hother
    rw [Piece.read, if_neg (by simp [hspace]), if_neg (by simp [hslash]),
      if_neg (by simp [hslash]), if_neg hdouble, if_neg hsingle, if_neg (by simp [hword]),
      if_pos hc, Text.span_append htaken hleft]
  | @arrow c _ hc =>
    refine ⟨c, ['>'], rfl, ?_⟩
    rcases hc with rfl | rfl <;> rfl
  | @mark c _ hc hcontinues =>
    refine ⟨c, [], rfl, ?_⟩
    obtain ⟨hspace, hdouble, hsingle, hword, hdigit⟩ := hc
    have hline : ¬ ((c = '/' && left.head? = some '/') = true) := by
      intro hline
      simp only [Bool.and_eq_true, decide_eq_true_eq] at hline
      obtain ⟨rfl, hhead⟩ := hline
      exact hcontinues _ .lineComment (singleton_isPrefix.mpr hhead)
    have hblock : ¬ ((c = '/' && left.head? = some '*') = true) := by
      intro hblock
      simp only [Bool.and_eq_true, decide_eq_true_eq] at hblock
      obtain ⟨rfl, hhead⟩ := hblock
      exact hcontinues _ .blockComment (singleton_isPrefix.mpr hhead)
    have harrow : ¬ (((c = '-' || c = '=') && left.head? = some '>') = true) := by
      intro harrow
      simp only [Bool.and_eq_true, Bool.or_eq_true, decide_eq_true_eq] at harrow
      exact hcontinues _ (.arrow harrow.1) (singleton_isPrefix.mpr harrow.2)
    rw [List.nil_append, Piece.read, if_neg (by simp [hspace]), if_neg hline, if_neg hblock,
      if_neg hdouble, if_neg hsingle, if_neg (by simp [hword]), if_neg (by simp [hdigit]),
      if_neg harrow]
    rfl

/-- What starts like a delimited piece is one. -/
theorem exists_reads_of_opens {s : List Char} (ho : Opens k o f) (hs : o <+: s) :
    ∃ k text left, Reads k text left ∧ text ++ left = s := by
  obtain ⟨t, rfl⟩ := hs
  have hwhole : t = (f t).1 ++ (f t).2 := ho.append_eq rfl
  have hf : f ((f t).1 ++ (f t).2) = ((f t).1, (f t).2) := by rw [← hwhole]
  refine ⟨k, o ++ (f t).1, (f t).2, .delimited ho hf, ?_⟩
  rw [List.append_assoc, ← hwhole]

/-- What starts like a word is a word, or something longer that the word starts. -/
theorem exists_reads_of_isWordStart {c : Char} (hc : isWordStart c = true) (rest : List Char) :
    ∃ k text left, Reads k text left ∧ text ++ left = c :: rest := by
  obtain ⟨hrest, htaken, hafter⟩ := Text.span_sound isWordPart rest
  generalize (rest.span isWordPart).1 = taken at hrest htaken
  generalize (rest.span isWordPart).2 = after at hrest hafter
  by_cases hcontinues : ∀ o, Continues (c :: taken) o → ¬ o <+: after
  · exact ⟨.word, c :: taken, after, .word hc htaken hafter hcontinues,
      congrArg (c :: ·) hrest.symm⟩
  · simp only [not_forall, not_not] at hcontinues
    obtain ⟨o, ho, hstart⟩ := hcontinues
    have hlong : c :: taken ++ o <+: c :: rest := by
      rw [hrest, ← List.cons_append]
      exact (List.prefix_append_right_inj _).mpr hstart
    generalize hw : c :: taken = w at ho hlong
    cases ho with
    | rawString n hmem => exact exists_reads_of_opens (.rawString hmem) hlong
    | string hmem => exact exists_reads_of_opens (.string (List.mem_cons_of_mem _ hmem)) hlong
    | quote => exact exists_reads_of_opens (.quote (p := ['b']) (by simp)) hlong
    | @rawWord d hd =>
      obtain ⟨more, hmore⟩ := hlong
      obtain ⟨hsplit, hpart, hleft⟩ := Text.span_sound isWordPart more
      refine ⟨.word, _, _, .rawWord hd hpart hleft, ?_⟩
      rw [← hmore]
      exact congrArg (fun s => 'r' :: '#' :: d :: s) hsplit.symm
    | lineComment | blockComment =>
      rw [(List.cons.inj hw).1] at hc
      cases hc
    | arrow harrow =>
      rw [(List.cons.inj hw).1] at hc
      rcases harrow with rfl | rfl <;> cases hc

/-- **Every text starts with a piece.** -/
theorem exists_reads (c : Char) (rest : List Char) :
    ∃ k text left, Reads k text left ∧ text ++ left = c :: rest := by
  by_cases hspace : isSpace c = true
  · obtain ⟨hrest, htaken, hleft⟩ := Text.span_sound isSpace rest
    exact ⟨.blank, _, _, .blank hspace htaken hleft, congrArg (c :: ·) hrest.symm⟩
  by_cases hword : isWordStart c = true
  · exact exists_reads_of_isWordStart hword rest
  by_cases hdouble : c = '"'
  · subst hdouble
    exact exists_reads_of_opens (.string (p := []) (by simp)) (singleton_isPrefix.mpr rfl)
  by_cases hsingle : c = '\''
  · subst hsingle
    exact exists_reads_of_opens (.quote (p := []) (by simp)) (singleton_isPrefix.mpr rfl)
  by_cases hdigit : c.isDigit = true
  · obtain ⟨hrest, htaken, hleft⟩ := Text.span_sound isWordPart rest
    exact ⟨.number, _, _, .number hdigit htaken hleft, congrArg (c :: ·) hrest.symm⟩
  have hmark : IsMark c :=
    ⟨Bool.eq_false_iff.mpr hspace, hdouble, hsingle, Bool.eq_false_iff.mpr hword,
      Bool.eq_false_iff.mpr hdigit⟩
  by_cases hcontinues : ∀ o, Continues [c] o → ¬ o <+: rest
  · exact ⟨_, [c], rest, .mark hmark hcontinues, rfl⟩
  simp only [not_forall, not_not] at hcontinues
  obtain ⟨o, ho, more, rfl⟩ := hcontinues
  generalize hw : [c] = w at ho
  cases ho with
  | rawString n hmem =>
    subst hw
    simp only [List.mem_cons, List.cons.injEq, List.not_mem_nil, or_false] at hmem
    exfalso
    rcases hmem with hr | hb | hc
    · exact hword (by rw [hr.1]; rfl)
    · simp at hb
    · simp at hc
  | string hmem =>
    subst hw
    simp only [List.mem_cons, List.cons.injEq, List.not_mem_nil, or_false] at hmem
    exfalso
    rcases hmem with hb | hc
    · exact hword (by rw [hb.1]; rfl)
    · exact hword (by rw [hc.1]; rfl)
  | quote => exact absurd (by rw [(List.cons.inj hw).1]; rfl) hword
  | rawWord => exact absurd (by rw [(List.cons.inj hw).1]; rfl) hword
  | lineComment =>
    obtain rfl : c = '/' := (List.cons.inj hw).1
    obtain ⟨hsplit, htaken, hleft⟩ := Text.span_sound (· ≠ '\n') more
    refine ⟨.lineComment, _, _, .lineComment ?_ ?_, congrArg (fun s => '/' :: '/' :: s) hsplit.symm⟩
    · intro hmem
      simpa using htaken _ hmem
    · intro d hd
      simpa using hleft d hd
  | blockComment =>
    obtain rfl : c = '/' := (List.cons.inj hw).1
    exact exists_reads_of_opens .blockComment ⟨more, rfl⟩
  | arrow harrow =>
    obtain rfl : c = _ := (List.cons.inj hw).1
    exact ⟨.arrow, [c, '>'], more, .arrow harrow, rfl⟩

/-- **What is read is a piece**, and it stands in front of what is left. -/
theorem reads_of_read {c : Char} {rest left : List Char} {p : Piece}
    (h : Piece.read c rest = (p, left)) :
    Reads p.kind p.text left ∧ p.text ++ left = c :: rest := by
  obtain ⟨k, text, behind, hreads, happend⟩ := exists_reads c rest
  obtain ⟨d, a, rfl, hread⟩ := hreads.read
  obtain ⟨rfl, rfl⟩ : d = c ∧ a ++ behind = rest := List.cons.inj happend
  rw [hread] at h
  obtain ⟨rfl, rfl⟩ := Prod.mk.inj h
  exact ⟨hreads, rfl⟩

/-! ## What is behind a piece -/

/-- The front of a text reads as it did in the whole text. -/
theorem Opens.cut (h : Opens k o f) {a u t : List Char} (hf : f (a ++ (u ++ t)) = (a, u ++ t)) :
    f (a ++ u) = (a, u) := by
  cases h with
  | blockComment => exact (delimits_blockRest 1).cut hf
  | string => exact delimits_stringRest.cut hf
  | rawString => exact (delimits_rawRest _).cut hf
  | quote =>
    by_cases hne : u ++ t = []
    · obtain ⟨rfl, rfl⟩ := List.append_eq_nil_iff.mp hne
      exact hf
    by_cases ha : a = []
    · -- the two characters behind a quote that stands alone, as far as they are there
      subst ha
      rw [List.nil_append, quoteRest_eq_nil_iff] at hf ⊢
      cases u with
      | nil => simp
      | cons c u =>
        refine ⟨hf.1, fun hhead => hf.2 ?_⟩
        obtain ⟨more, hmore⟩ := List.head?_eq_some_iff.mp hhead
        rw [List.tail_cons] at hmore
        rw [hmore]
        rfl
    · exact quoteRest_stays hf ha hne u

/-- The front of a text starts with the same piece. -/
theorem Reads.cut {text u t : List Char} (h : Reads k text (u ++ t)) : Reads k text u := by
  have hhead : ∀ d ∈ u.head?, d ∈ (u ++ t).head? := by
    intro d hd
    rw [List.head?_append, hd]
    rfl
  generalize hleft : u ++ t = left at h
  rw [hleft] at hhead
  cases h with
  | blank hc htaken hbehind => exact .blank hc htaken fun d hd => hbehind d (hhead d hd)
  | lineComment htaken hbehind => exact .lineComment htaken fun d hd => hbehind d (hhead d hd)
  | delimited ho hf =>
    subst hleft
    exact .delimited ho (ho.cut hf)
  | word hc htaken hbehind hcontinues =>
    refine .word hc htaken (fun d hd => hbehind d (hhead d hd)) fun o ho hu => hcontinues o ho ?_
    exact hleft ▸ hu.trans (List.prefix_append u t)
  | rawWord hc htaken hbehind => exact .rawWord hc htaken fun d hd => hbehind d (hhead d hd)
  | number hc htaken hbehind => exact .number hc htaken fun d hd => hbehind d (hhead d hd)
  | arrow hc => exact .arrow hc
  | mark hc hcontinues =>
    refine .mark hc fun o ho hu => hcontinues o ho ?_
    exact hleft ▸ hu.trans (List.prefix_append u t)

/-- There are no blanks in what may continue a piece. -/
theorem Continues.isSpace_eq_false {w : List Char} (h : Continues w o) :
    o ≠ [] ∧ ∀ b ∈ o, isSpace b = false := by
  cases h with
  | rawString n =>
    refine ⟨by simp, fun b hb => ?_⟩
    rcases List.mem_append.mp hb with hb | hb
    · rw [List.eq_of_mem_replicate hb]
      rfl
    · rw [List.mem_singleton.mp hb]
      rfl
  | @rawWord c hc =>
    refine ⟨by simp, fun b hb => ?_⟩
    simp only [List.mem_cons, List.not_mem_nil, or_false] at hb
    rcases hb with rfl | rfl
    · rfl
    · exact (of_isWordStart hc).2.1
  | string | quote | lineComment | blockComment | arrow =>
    refine ⟨List.cons_ne_nil _ _, fun b hb => Bool.eq_false_iff.mpr ?_⟩
    exact List.any_eq_false.mp (by decide) b hb

/-- A blank continues nothing. -/
theorem Continues.not_blank {w : List Char} (h : Continues w o) {b : Char} (hb : isSpace b = true)
    (more : List Char) : ¬ o <+: b :: more := by
  obtain ⟨hne, hspace⟩ := h.isSpace_eq_false
  obtain ⟨c, rest, rfl⟩ := List.exists_cons_of_ne_nil hne
  intro hstart
  obtain rfl : c = b := (List.cons_prefix_cons.mp hstart).1
  rw [hspace c List.mem_cons_self] at hb
  cases hb

/-- What stands at the start of a text stands in front of a character that is not in it. -/
theorem prefix_append_cons_iff {u : List Char} {b : Char} (hb : b ∉ o) {more : List Char} :
    o <+: u ++ b :: more ↔ o <+: u := by
  refine ⟨?_, fun h => h.trans (List.prefix_append u _)⟩
  rintro ⟨t, ht⟩
  rcases List.append_eq_append_iff.mp ht with ⟨rest, rfl, -⟩ | ⟨rest, rfl, hrest⟩
  · exact List.prefix_append o rest
  · cases rest with
    | nil => simp
    | cons c rest =>
      obtain rfl : b = c := (List.cons.inj hrest).1
      exact absurd (by simp) hb

/-- What continues a piece stands in front of the first blank. -/
theorem Continues.of_prefix_append {w u : List Char} (h : Continues w o) {b : Char}
    (hb : isSpace b = true) {more : List Char} (hstart : o <+: u ++ b :: more) : o <+: u := by
  refine (prefix_append_cons_iff fun hmem => ?_).mp hstart
  rw [h.isSpace_eq_false.2 b hmem] at hb
  cases hb

/-- The kinds of pieces that an end mark closes. -/
def delimitedKinds : List Kind := [.blockComment, .string, .quote]

/-- **A blank ends a piece** as well as anything else that did. -/
theorem Reads.blank_behind {text t : List Char} (h : Reads k text t) {b : Char}
    (hb : isSpace b = true) {more : List Char} (hblank : k ≠ .blank)
    (hline : k = .lineComment → b = '\n') (hopen : k ∈ delimitedKinds → t ≠ [])
    (hquote : k = .quote → more.head? ≠ some '\'') : Reads k text (b :: more) := by
  obtain ⟨hpart, hother⟩ := of_isSpace hb
  have hend : ∀ d ∈ (b :: more).head?, isWordPart d = false := by
    intro d hd
    exact Option.some.inj hd ▸ hpart
  cases h with
  | blank => exact absurd rfl hblank
  | lineComment htaken => exact .lineComment htaken fun d hd => Option.some.inj hd ▸ hline rfl
  | @delimited _ o taken _ f ho hf =>
    refine .delimited ho ?_
    have ht : t ≠ [] := hopen (by cases ho <;> decide)
    by_cases halone : k = .quote ∧ taken = []
    · obtain ⟨rfl, rfl⟩ := halone
      cases ho with
      | quote =>
        refine quoteRest_eq_nil_iff.mpr ⟨fun hhead => ?_, hquote rfl⟩
        exact hother (by simp [Option.some.inj hhead])
    · exact ho.stays hf ht (fun hk htaken => halone ⟨hk, htaken⟩) _
  | word hc htaken => exact .word hc htaken hend fun o ho => ho.not_blank hb more
  | rawWord hc htaken => exact .rawWord hc htaken hend
  | number hc htaken => exact .number hc htaken hend
  | arrow hc => exact .arrow hc
  | mark hc => exact .mark hc fun o ho => ho.not_blank hb more

/-- **A blank behind what is left changes nothing.** -/
theorem Reads.extend {text u : List Char} (h : Reads k text u) (hu : u ≠ []) {b : Char}
    (hb : isSpace b = true) (more : List Char) : Reads k text (u ++ b :: more) := by
  have hhead : (u ++ b :: more).head? = u.head? := by
    obtain ⟨c, u, rfl⟩ := List.exists_cons_of_ne_nil hu
    rfl
  cases h with
  | blank hc htaken hleft => exact .blank hc htaken (hhead ▸ hleft)
  | lineComment htaken hleft => exact .lineComment htaken (hhead ▸ hleft)
  | @delimited _ o taken _ f ho hf =>
    refine .delimited ho ?_
    by_cases halone : k = .quote ∧ taken = []
    · obtain ⟨rfl, rfl⟩ := halone
      cases ho with
      | quote =>
        rw [List.nil_append, quoteRest_eq_nil_iff] at hf ⊢
        refine ⟨hhead ▸ hf.1, ?_⟩
        obtain ⟨c, u, rfl⟩ := List.exists_cons_of_ne_nil hu
        cases u with
        | nil =>
          intro hquote
          exact (of_isSpace hb).2 (by simp [Option.some.inj hquote])
        | cons d u => exact hf.2
    · exact ho.stays hf hu (fun hk htaken => halone ⟨hk, htaken⟩) _
  | word hc htaken hleft hcontinues =>
    exact .word hc htaken (hhead ▸ hleft) fun o ho hstart =>
      hcontinues o ho (ho.of_prefix_append hb hstart)
  | rawWord hc htaken hleft => exact .rawWord hc htaken (hhead ▸ hleft)
  | number hc htaken hleft => exact .number hc htaken (hhead ▸ hleft)
  | arrow hc => exact .arrow hc
  | mark hc hcontinues =>
    exact .mark hc fun o ho hstart => hcontinues o ho (ho.of_prefix_append hb hstart)

/-- A piece of such a kind has an end mark, or it misses one. -/
theorem Reads.opens {text left : List Char} (h : Reads k text left) (hk : k ∈ delimitedKinds) :
    ∃ o taken f, Opens k o f ∧ text = o ++ taken ∧ f (taken ++ left) = (taken, left) := by
  cases h with
  | delimited ho hf => exact ⟨_, _, _, ho, rfl, hf⟩
  | mark =>
    unfold markKind at hk
    grind [delimitedKinds]
  | _ => exact absurd hk (by decide)

/-- A line feed behind a text ends the last piece of it, or it belongs to a comment or literal that
is not closed. -/
theorem Reads.lineFeed {text : List Char} (h : Reads k text []) (hblank : k ≠ .blank) :
    Reads k text ['\n'] ∨ (k ∈ delimitedKinds ∧ Reads k (text ++ ['\n']) []) := by
  by_cases hk : k ∈ delimitedKinds
  · obtain ⟨o, taken, f, ho, rfl, hf⟩ := h.opens hk
    rw [List.append_nil] at hf
    obtain ⟨x, y, hxy⟩ : ∃ x y, f (taken ++ ['\n']) = (x, y) := ⟨_, _, rfl⟩
    have hsplit := ho.append_eq hxy
    rcases List.eq_nil_or_concat y with rfl | ⟨y, d, rfl⟩
    · rw [List.append_nil] at hsplit
      refine .inr ⟨hk, ?_⟩
      rw [List.append_assoc]
      refine .delimited ho ?_
      rw [List.append_nil, hxy, hsplit]
    · -- what is left ends with the line feed, so the front reads as it did without
      rw [List.concat_eq_append, ← List.append_assoc] at hsplit
      obtain ⟨rfl, hd⟩ := List.append_inj' hsplit rfl
      obtain rfl : '\n' = d := List.singleton_inj.mp hd
      rw [List.concat_eq_append, List.append_assoc] at hxy
      have hfront : f (x ++ y) = (x, y) := ho.cut hxy
      obtain rfl : y = [] := (Prod.mk.inj (hfront.symm.trans hf)).2
      exact .inl (.delimited ho (by simpa using hxy))
  · refine .inl (h.blank_behind (by decide) hblank (fun _ => rfl) (fun h => absurd h hk) ?_)
    simp

end LiveDoc.Item.Piece
