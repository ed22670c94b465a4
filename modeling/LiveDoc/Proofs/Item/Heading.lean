import LiveDoc.Proofs.Item.Walk

/-!
# In front of a body

What stands in front of the body of an item decides where a body is found behind it, whatever that
body is. `Heads` are the tokens there, told apart as the scanner does; another body is found at the
first brace behind them when they leave nothing open (`Fits`), and else there is none.

* `Owns.exists_headed` — an item with a body has such tokens;
* `Heads.trim` — tokens at the end of them that mean nothing can go;
* `Heads.scan_fit`, `Heads.scan_unfit`, `Heads.scan_quiet` — what is found with something else
  behind them.
-/

namespace LiveDoc.Item

variable {kind : Kind} {front mods after : List Lexeme} {k last : Lexeme}

/-! ## Tokens without a meaning -/

/-- The kinds of tokens that change nothing where they stand in a header. -/
def idleKinds : List Lexeme.Kind := [.other, .outerDoc, .innerDoc]

/-- The kinds of tokens that neither end a header nor open anything. -/
def quietKinds : List Lexeme.Kind := .close :: idleKinds

theorem openBehind_of_idle {t : Lexeme} (h : t.kind ∈ idleKinds) (s : Nat × Nat) :
    openBehind s t = s ∧ endsHeader s t = false := by
  simp only [idleKinds, List.mem_cons, List.not_mem_nil, or_false] at h
  rcases h with h | h | h <;> simp [openBehind, endsHeader, h]

theorem of_quiet {t : Lexeme} (h : t.kind ∈ quietKinds) :
    t.kind ≠ .open ∧ t.kind ≠ .bang ∧ ∀ s, endsHeader s t = false := by
  simp only [quietKinds, idleKinds, List.mem_cons, List.not_mem_nil, or_false] at h
  rcases h with h | h | h | h <;> simp [endsHeader, h]

theorem foldl_openBehind_of_idle {ts : List Lexeme} (h : ∀ t ∈ ts, t.kind ∈ idleKinds)
    (s : Nat × Nat) : ts.foldl openBehind s = s := by
  induction ts with
  | nil => rfl
  | cons t ts ih =>
    rw [List.foldl_cons, (openBehind_of_idle (h t List.mem_cons_self) s).1]
    exact ih fun u hu => h u (List.mem_cons_of_mem t hu)

theorem passes_of_quiet {ts : List Lexeme} (h : ∀ t ∈ ts, t.kind ∈ quietKinds) (s : Nat × Nat) :
    Passes endsHeader openBehind s ts := by
  induction ts generalizing s with
  | nil => trivial
  | cons t ts ih =>
    exact ⟨(of_quiet (h t List.mem_cons_self)).2.2 s,
      ih (fun u hu => h u (List.mem_cons_of_mem t hu)) _⟩

/-- The end of a header is not among such tokens. -/
theorem seek_of_quiet {ts : List Lexeme} (h : ∀ t ∈ ts, t.kind ∈ quietKinds) (s : Nat × Nat) :
    seek endsHeader openBehind last s ts = [last] := by
  have hseek := seek_of_passes (passes_of_quiet h s) last []
  rwa [List.append_nil] at hseek

/-- A group of such tokens ends with the token behind them, whatever that is. -/
theorem matchingClose_of_idle {b c : Lexeme} {inner : List Lexeme} (hb : b.kind = .open)
    (hinner : ∀ t ∈ inner, t.kind ∈ idleKinds) :
    matchingClose c 0 (b :: (inner ++ [c])) = [c] := by
  have hopens : closes 0 b = false ∧ depthBehind 0 b = 1 := by simp [closes, depthBehind, hb]
  rw [matchingClose_eq_seek, seek, hopens.1, hopens.2, if_neg Bool.false_ne_true]
  induction inner with
  | nil =>
    rw [List.nil_append, seek]
    split <;> rfl
  | cons t inner ih =>
    have ht := hinner t List.mem_cons_self
    have hpassed : closes 1 t = false ∧ depthBehind 1 t = 1 := by
      simp only [idleKinds, List.mem_cons, List.not_mem_nil, or_false] at ht
      rcases ht with ht | ht | ht <;> simp [closes, depthBehind, ht]
    rw [List.cons_append, seek, hpassed.1, hpassed.2]
    exact ih fun u hu => hinner u (List.mem_cons_of_mem t hu)

theorem kindAt_of_open {b : Lexeme} (h : b.kind = .open) (rest : List Lexeme) :
    kindAt (b :: rest) ≠ some .bang := by
  intro hbang
  have hkind : b.kind = .bang := Option.some.inj hbang
  rw [h] at hkind
  cases hkind

/-! ## Kinds of items with a body -/

theorem of_hasStrippableBody (h : kind.hasStrippableBody = true) :
    kind.isNamed = true ∧ kind.endsWithSemicolon = false ∧ kind ≠ .macroRules ∧ kind ≠ .static := by
  revert h
  cases kind <;> decide

theorem namePlace_of_hasStrippableBody (h : kind.hasStrippableBody = true) (ts : List Lexeme) :
    namePlace kind ts = ts := by
  obtain ⟨-, -, hplain, hstatic⟩ := of_hasStrippableBody h
  simp [namePlace, hplain, hstatic]

theorem itemName?_of_hasStrippableBody (h : kind.hasStrippableBody = true) (ts : List Lexeme) :
    itemName? kind ts = nameAt? ts := by
  rw [itemName?, if_pos (of_hasStrippableBody h).1, namePlace_of_hasStrippableBody h]

theorem behindName_of_hasStrippableBody (h : kind.hasStrippableBody = true) (ts : List Lexeme) :
    behindName kind ts = ts.tail := by
  rw [behindName, if_pos (of_hasStrippableBody h).1, namePlace_of_hasStrippableBody h]

/-- The keywords of such items are no modifiers. -/
theorem ne_modifier_of_keyword {text : List Char} (h : Kind.ofKeyword? text = some kind)
    (hkind : kind.hasStrippableBody = true) :
    (∀ s ∈ ["pub", "const", "extern", "async", "unsafe", "default", "auto", "safe"],
      text ≠ s.toList) ∧ text ≠ "macro_rules".toList := by
  have hother : ∀ s ∈ ["pub", "const", "extern", "async", "unsafe", "default", "auto", "safe",
      "macro_rules"],
      (Kind.ofKeyword? s.toList).all (fun kind => !kind.hasStrippableBody) = true := by
    decide
  have hne : ∀ s ∈ ["pub", "const", "extern", "async", "unsafe", "default", "auto", "safe",
      "macro_rules"], text ≠ s.toList := by
    rintro s hs rfl
    have hall := hother s hs
    rw [h, Option.all_some, hkind] at hall
    cases hall
  exact ⟨fun s hs => hne s (List.mem_append_left ["macro_rules"] hs), hne _ (by simp)⟩

/-- A keyword is a word of two characters at least. -/
theorem ofKeyword?_shape {text : List Char} (h : Kind.ofKeyword? text = some kind) :
    2 ≤ text.length ∧ ∀ c ∈ text.head?, Piece.isWordStart c = true := by
  obtain ⟨entry, hentry, hfound⟩ := List.exists_of_findSome?_eq_some h
  dsimp only at hfound
  split at hfound
  · next htext =>
    rw [← htext]
    suffices hshape : 2 ≤ entry.1.toList.length ∧
        entry.1.toList.head?.all Piece.isWordStart = true by
      exact ⟨hshape.1, (Option.all_eq_true _ _).mp hshape.2⟩
    clear hfound htext
    revert entry
    decide
  · cases hfound

/-! ## Headers -/

/-- The tokens in front of a body: attributes and doc comments that wait for an item, modifiers, a
keyword, and what stands behind that. -/
structure Heads (kind : Kind) (front mods : List Lexeme) (k : Lexeme) (after : List Lexeme) :
    Prop where
  strippable : kind.hasStrippableBody = true
  waits : ∀ last rest, walk last none (front ++ (mods ++ k :: rest)) =
    walk last (front.head?.map (·.span.start)) (mods ++ k :: rest)
  word : kindAt (mods ++ [k]) = some .word
  keyword : ∀ last rest, keywordPlace last (mods ++ k :: rest) = k :: rest
  text : Kind.ofKeyword? k.text = some kind
  union : k.text = "union".toList → kindAt after = some .word
  bang : kindAt after ≠ some .bang
  passes : Passes endsHeader openBehind (0, 0) after.tail

/-- Whether a brace behind these tokens, which stand behind a keyword, opens the body: there is a
name, or what stands in its place, and nothing is left open behind it. -/
def Fits (after : List Lexeme) : Prop :=
  after ≠ [] ∧ after.tail.foldl openBehind (0, 0) = (0, 0)

/-- An item starts with what waits for it, or with its first word. -/
theorem startAt_of_waits {t : Lexeme} {rest more : List Lexeme}
    (h : mods ++ k :: rest = t :: more) :
    (front.head?.map (·.span.start)).getD t.span.start = startAt k (front ++ mods) := by
  cases mods with
  | nil =>
    rw [(List.cons.inj h).1]
    cases front <;> rfl
  | cons m mods =>
    rw [(List.cons.inj h).1]
    cases front <;> rfl

/-- **Tokens without a meaning at the end of a header can go.** -/
theorem Heads.trim {idle : List Lexeme} (h : Heads kind front mods k (after ++ idle))
    (hidle : ∀ t ∈ idle, t.kind ∈ idleKinds) : Heads kind front mods k after := by
  have hfirst : after = [] → kindAt (after ++ idle) = none ∨
      ∃ i ∈ idleKinds, kindAt (after ++ idle) = some i := by
    rintro rfl
    cases idle with
    | nil => exact .inl rfl
    | cons t idle => exact .inr ⟨t.kind, hidle t List.mem_cons_self, rfl⟩
  refine ⟨h.strippable, h.waits, h.word, h.keyword, h.text, fun hunion => ?_, ?_, ?_⟩
  · have hword := h.union hunion
    cases after with
    | cons n a => exact hword
    | nil =>
      rcases hfirst rfl with hnone | ⟨i, hi, hsome⟩
      · rw [hnone] at hword
        cases hword
      · rw [hsome] at hword
        obtain rfl := Option.some.inj hword
        exact absurd hi (by decide)
  · cases after with
    | cons n a => exact h.bang
    | nil => exact nofun
  · cases after with
    | cons n a => exact (passes_append.mp h.passes).1
    | nil => trivial

section Scan

variable (h : Heads kind front mods k after) {rest : List Lexeme}

include h

/-- The keyword is read whatever stands behind the header. -/
theorem Heads.scanItem_eq (hbang : kindAt rest ≠ some .bang) (last : Lexeme) (start : Nat) :
    scanItem last start (mods ++ k :: (after ++ rest)) =
      (some (itemOf last start kind (nameAt? (after ++ rest))
        (extent last kind (after ++ rest).tail)),
        (extent last kind (after ++ rest).tail).1.tail) := by
  obtain ⟨hmodifier, hplain⟩ := ne_modifier_of_keyword h.text h.strippable
  have hfirst : kindAt (after ++ rest) ≠ some .bang := by
    cases hafter : after with
    | nil => exact hbang
    | cons n a =>
      have hn := h.bang
      rw [hafter] at hn
      exact hn
  have hinvocation : isInvocation (k :: (after ++ rest)) = false := by
    rw [isInvocation, List.tail_cons, decide_eq_false hfirst, Bool.and_false]
  have hunion : ¬ ((textAt (k :: (after ++ rest)) = "union".toList &&
      kindAt (after ++ rest) ≠ some .word) = true) := by
    intro hboth
    simp only [Bool.and_eq_true, decide_eq_true_eq] at hboth
    have hword := h.union hboth.1
    cases hafter : after with
    | nil =>
      rw [hafter] at hword
      cases hword
    | cons n a =>
      rw [hafter] at hword hboth
      exact hboth.2 hword
  have hkeyword : keywordAt? (k :: (after ++ rest)) = some kind := by
    have hextern : ¬ textAt (k :: (after ++ rest)) = "extern".toList := hmodifier "extern" (by simp)
    rw [keywordAt?, if_neg hextern, List.tail_cons, if_neg hunion]
    exact h.text
  rw [Item.scanItem_eq, h.keyword, hinvocation, hkeyword]
  dsimp only
  rw [if_neg Bool.false_ne_true, List.tail_cons, itemName?_of_hasStrippableBody h.strippable,
    behindName_of_hasStrippableBody h.strippable]

/-- The first item of a header with something behind it. -/
theorem Heads.scanLexemes_eq (hlast : rest.getLast? = some last)
    (hbang : kindAt rest ≠ some .bang) :
    scanLexemes (front ++ (mods ++ k :: (after ++ rest))) =
      itemOf last (startAt k (front ++ mods)) kind (nameAt? (after ++ rest))
        (extent last kind (after ++ rest).tail) ::
      walk last none (extent last kind (after ++ rest).tail).1.tail := by
  have hwhole : (front ++ (mods ++ k :: (after ++ rest))).getLast? = some last := by
    simp [List.getLast?_append, List.getLast?_cons, hlast]
  obtain ⟨t, more, hmore, hword⟩ : ∃ t more, mods ++ k :: (after ++ rest) = t :: more ∧
      t.kind = .word := by
    have hword := h.word
    cases mods with
    | nil => exact ⟨k, after ++ rest, rfl, Option.some.inj hword⟩
    | cons m mods => exact ⟨m, _, rfl, Option.some.inj hword⟩
  have hread := h.scanItem_eq hbang last (startAt k (front ++ mods))
  rw [hmore] at hread
  rw [scanLexemes_eq_walk hwhole, h.waits, hmore, walk_cons, step_of_word _ _ hword,
    startAt_of_waits hmore, hread]
  rfl

theorem Heads.exists_bodyless (hlast : rest.getLast? = some last) (hbang : kindAt rest ≠ some .bang)
    (hstop : seek endsHeader openBehind last (0, 0) (after ++ rest).tail = [last])
    (hopen : last.kind ≠ .open) :
    ∃ i more, scanLexemes (front ++ (mods ++ k :: (after ++ rest))) = i :: more ∧
      i.body = none := by
  obtain ⟨-, hsemicolon, hplain, -⟩ := of_hasStrippableBody h.strippable
  refine ⟨_, _, h.scanLexemes_eq hlast hbang, ?_⟩
  have hkind : ¬ kindAt [last] = some .open := fun hlast => hopen (Option.some.inj hlast)
  rw [extent_of_header hsemicolon hplain, bodyOrSemicolonFrom_eq_seek, hstop, if_neg hkind]
  rfl

/-- Without a brace there is no body. -/
theorem Heads.scan_quiet (hne : rest ≠ []) (hquiet : ∀ t ∈ rest, t.kind ∈ quietKinds) :
    ∃ i more, scanLexemes (front ++ (mods ++ k :: (after ++ rest))) = i :: more ∧
      i.body = none := by
  obtain ⟨last, hlast⟩ : ∃ z, rest.getLast? = some z := ⟨_, List.getLast?_eq_some_getLast hne⟩
  have hbang : kindAt rest ≠ some .bang := by
    obtain ⟨t, ts, rfl⟩ := List.exists_cons_of_ne_nil hne
    exact fun ht => (of_quiet (hquiet t List.mem_cons_self)).2.1 (Option.some.inj ht)
  refine h.exists_bodyless hlast hbang ?_ (of_quiet (hquiet _ (List.mem_of_getLast? hlast))).1
  cases hafter : after with
  | nil => exact seek_of_quiet (fun t ht => hquiet t (List.mem_of_mem_tail ht)) _
  | cons n a =>
    have hpasses := h.passes
    rw [hafter, List.tail_cons] at hpasses
    rw [List.cons_append, List.tail_cons, seek_of_passes hpasses]
    exact seek_of_quiet hquiet _

/-- A brace behind a header that leaves something open is not taken for the body. -/
theorem Heads.scan_unfit (hfits : ¬ Fits after) {b : Lexeme} (hb : b.kind = .open) (hne : rest ≠ [])
    (hquiet : ∀ t ∈ rest, t.kind ∈ quietKinds) :
    ∃ i more, scanLexemes (front ++ (mods ++ k :: (after ++ b :: rest))) = i :: more ∧
      i.body = none := by
  obtain ⟨last, hlast⟩ : ∃ z, rest.getLast? = some z := ⟨_, List.getLast?_eq_some_getLast hne⟩
  have hlast' : (b :: rest).getLast? = some last := by
    rw [List.getLast?_cons, hlast]
    rfl
  refine h.exists_bodyless hlast' (kindAt_of_open hb rest) ?_
    (of_quiet (hquiet _ (List.mem_of_getLast? hlast))).1
  cases hafter : after with
  | nil => exact seek_of_quiet hquiet _
  | cons n a =>
    have hpasses := h.passes
    rw [hafter, List.tail_cons] at hpasses
    rw [hafter] at hfits
    have hopened : a.foldl openBehind (0, 0) ≠ (0, 0) :=
      fun hzero => hfits ⟨List.cons_ne_nil n a, hzero⟩
    have hpassed : endsHeader (a.foldl openBehind (0, 0)) b = false := by
      rw [Bool.eq_false_iff]
      intro hends
      simp only [endsHeader, Bool.and_eq_true, decide_eq_true_eq] at hends
      exact hopened (Prod.ext hends.1.1 hends.1.2)
    rw [List.cons_append, List.tail_cons, seek_of_passes hpasses, seek, hpassed,
      if_neg Bool.false_ne_true]
    exact seek_of_quiet hquiet _

/-- **A brace behind a header that leaves nothing open is the body**, up to the end. -/
theorem Heads.scan_fit (hfits : Fits after) {b c : Lexeme} {inner : List Lexeme}
    (hb : b.kind = .open) (htext : b.text = ['{']) (hinner : ∀ t ∈ inner, t.kind ∈ idleKinds) :
    scanLexemes (front ++ (mods ++ k :: (after ++ b :: (inner ++ [c])))) =
      [⟨kind, nameAt? after, ⟨startAt k (front ++ mods), c.span.stop⟩,
        some ⟨b.span.start, c.span.stop⟩,
        ((inner ++ [c]).takeWhile (·.kind = .innerDoc)).map (·.span)⟩] := by
  obtain ⟨-, hsemicolon, hplain, -⟩ := of_hasStrippableBody h.strippable
  have hlast : (b :: (inner ++ [c])).getLast? = some c := by simp [List.getLast?_cons]
  have hstop : seek endsHeader openBehind c (0, 0) (after ++ b :: (inner ++ [c])).tail =
      b :: (inner ++ [c]) := by
    obtain ⟨n, a, rfl⟩ := List.exists_cons_of_ne_nil hfits.1
    have hpasses : Passes endsHeader openBehind (0, 0) a := h.passes
    have hclosed : a.foldl openBehind (0, 0) = (0, 0) := hfits.2
    have hends : endsHeader (0, 0) b = true := by simp [endsHeader, hb, htext]
    rw [List.cons_append, List.tail_cons, seek_of_passes hpasses, hclosed, seek, if_pos hends]
  have hopen : kindAt (b :: (inner ++ [c])) = some .open := congrArg some hb
  have hname : nameAt? (after ++ b :: (inner ++ [c])) = nameAt? after := by
    obtain ⟨n, a, rfl⟩ := List.exists_cons_of_ne_nil hfits.1
    rfl
  rw [h.scanLexemes_eq hlast (kindAt_of_open hb _), extent_of_header hsemicolon hplain,
    bodyOrSemicolonFrom_eq_seek, hstop, if_pos hopen, matchingClose_of_idle hb hinner, hname]
  rfl

end Scan

/-! ## Items with a body -/

/-- The tokens of an item with a body, around the bracket `o` that opens it. -/
structure Headed (own : List Lexeme) (i : Item) (front mods : List Lexeme) (k : Lexeme)
    (after : List Lexeme) (o : Lexeme) (inner : List Lexeme) : Prop where
  tokens : own = front ++ (mods ++ k :: (after ++ o :: inner))
  heads : Heads i.kind front mods k after
  opening : o.kind = .open
  start : i.span.start = startAt k (front ++ mods)
  body : ∀ b ∈ i.body, b.start = o.span.start
  name : i.name = nameAt? (after ++ o :: inner)
  docs : i.innerDocs = (inner.takeWhile (·.kind = .innerDoc)).map (·.span)
  fits : after ≠ [] → inner ≠ [] → Fits after

theorem of_keywordAt? {behind : List Lexeme} (h : keywordAt? (k :: behind) = some kind)
    (hkind : kind.hasStrippableBody = true) :
    Kind.ofKeyword? k.text = some kind ∧
      (k.text = "union".toList → kindAt behind = some .word) := by
  unfold keywordAt? at h
  split at h
  · obtain rfl := Option.some.inj h
    split at hkind <;> cases hkind
  split at h
  · cases h
  · next hunion =>
    refine ⟨h, fun htext => ?_⟩
    by_contra hword
    refine hunion ?_
    rw [Bool.and_eq_true, decide_eq_true_eq, decide_eq_true_eq]
    exact ⟨htext, hword⟩

/-- A header that ends with an opening bracket, or with the last token, ends behind the keyword. -/
theorem header_suffix {front behind inner : List Lexeme} {o : Lexeme}
    (hlast : (front ++ k :: behind).getLast? = some last) (hk : k ≠ o)
    (h : seek endsHeader openBehind last (0, 0) behind.tail = o :: inner) :
    o :: inner <:+ behind := by
  rcases seek_suffix last (0, 0) behind.tail with hnone | hfound
  · rw [h] at hnone
    obtain ⟨rfl, rfl⟩ := List.cons.inj hnone
    cases behind with
    | nil => exact absurd (by simpa using hlast) hk
    | cons n behind =>
      have hend : (n :: behind).getLast? = some o := by
        simpa [List.getLast?_append, List.getLast?_cons] using hlast
      obtain ⟨init, hinit⟩ := List.getLast?_eq_some_iff.mp hend
      exact ⟨init, hinit.symm⟩
  · rw [h] at hfound
    exact hfound.trans (List.tail_suffix behind)

theorem Heads.of_keyword {inner : List Lexeme} {t o : Lexeme} {mid : List Lexeme}
    (hkind : kind.hasStrippableBody = true) (hwaits : Waits front t) (hword : t.kind = .word)
    (hmods : mods ++ k :: (after ++ o :: inner) = t :: mid)
    (hplace : keywordPlace last (t :: mid) = k :: (after ++ o :: inner))
    (hinvocation : ¬ isInvocation (k :: (after ++ o :: inner)) = true)
    (hkeyword : keywordAt? (k :: (after ++ o :: inner)) = some kind) (ho : o.kind = .open)
    (hstop : seek endsHeader openBehind last (0, 0) (after ++ o :: inner).tail = o :: inner) :
    Heads kind front mods k after := by
  obtain ⟨htext, hunion⟩ := of_keywordAt? hkeyword hkind
  obtain ⟨hmodifier, hplain⟩ := ne_modifier_of_keyword htext hkind
  -- the first token behind the keyword, if it is in front of the body
  have hfirst : kindAt (after ++ o :: inner) = kindAt after ∨ (after = [] ∧
      kindAt (after ++ o :: inner) = some .open) := by
    cases after with
    | nil => exact .inr ⟨rfl, congrArg some ho⟩
    | cons n a => exact .inl rfl
  have hfrom : ∃ more, mods ++ [k] = t :: more := by
    cases mods with
    | nil => exact ⟨[], by rw [(List.cons.inj hmods).1]; rfl⟩
    | cons m mods => exact ⟨mods ++ [k], by rw [(List.cons.inj hmods).1]; rfl⟩
  obtain ⟨more, hmore⟩ := hfrom
  have hcut : ∀ rest, mods ++ k :: rest = t :: (more ++ rest) := by
    intro rest
    rw [← List.singleton_append, ← List.append_assoc, hmore, List.cons_append]
  refine ⟨hkind, ?_, ?_, ?_, htext, ?_, ?_, ?_⟩
  · intro last' rest
    rw [hcut, hwaits]
  · rw [hmore]
    exact congrArg some hword
  · have hsettled : Settled [k] := fun r => modifier?_of_text hmodifier
    intro last' rest
    have hsplit : mods ++ [k] ++ (after ++ o :: inner) = t :: mid := by simpa using hmods
    have hstays := keywordPlace_stays (a := mods ++ [k]) (b := [k]) (hsplit ▸ hplace)
      (List.cons_ne_nil k []) hsettled last' rest
    simpa using hstays
  · intro htext
    have hword := hunion htext
    rcases hfirst with hsame | ⟨-, hopen⟩
    · rwa [← hsame]
    · rw [hopen] at hword
      cases hword
  · rcases hfirst with hsame | ⟨rfl, -⟩
    · intro hbang
      refine hinvocation ?_
      rw [isInvocation, List.tail_cons, hsame, hbang, Bool.and_eq_true]
      exact ⟨decide_eq_true hplain, rfl⟩
    · exact nofun
  · cases after with
    | nil => trivial
    | cons n a => exact passes_of_seek hstop

/-- An item with a body is read from the tokens up to its opening and from those behind it. -/
theorem exists_opening {start : Nat} {name : Option String} {ts : List Lexeme} {i : Item}
    (hkind : kind.hasStrippableBody = true)
    (h : itemOf last start kind name (extent last kind ts) = i) (hbody : i.body.isSome) :
    ∃ o inner, seek endsHeader openBehind last (0, 0) ts = o :: inner ∧ o.kind = .open ∧
      i.span.start = start ∧ i.name = name ∧ (∀ b ∈ i.body, b.start = o.span.start) ∧
      i.innerDocs = (inner.takeWhile (·.kind = .innerDoc)).map (·.span) := by
  obtain ⟨-, hsemicolon, hplain, -⟩ := of_hasStrippableBody hkind
  have hne : seek endsHeader openBehind last (0, 0) ts ≠ [] := seek_ne_nil last (0, 0) ts
  obtain ⟨o, inner, hstop⟩ := List.exists_cons_of_ne_nil hne
  rw [extent_of_header hsemicolon hplain, bodyOrSemicolonFrom_eq_seek, hstop] at h
  by_cases ho : o.kind = .open
  · have hopen : kindAt (o :: inner) = some .open := congrArg some ho
    rw [if_pos hopen] at h
    subst h
    exact ⟨o, inner, hstop, ho, rfl, rfl, fun b hb => by rw [← Option.some.inj hb]; rfl, rfl⟩
  · have hother : ¬ kindAt (o :: inner) = some .open := fun hopen => ho (Option.some.inj hopen)
    rw [if_neg hother] at h
    rw [← h] at hbody
    cases hbody

/-- A header that does not end with the last token leaves nothing open. -/
theorem fits_of_seek {inner : List Lexeme} {o : Lexeme}
    (h : seek endsHeader openBehind last (0, 0) (after ++ o :: inner).tail = o :: inner)
    (hafter : after ≠ []) (hinner : inner ≠ []) : Fits after := by
  obtain ⟨n, a, rfl⟩ := List.exists_cons_of_ne_nil hafter
  rw [List.cons_append, List.tail_cons, seek_of_passes (passes_of_seek h)] at h
  have hends := stops_of_seek h hinner
  simp only [endsHeader, Bool.and_eq_true, decide_eq_true_eq] at hends
  exact ⟨hafter, Prod.ext hends.1.1 hends.1.2⟩

/-- **What stands in front of a body.** The bracket that opens it is found behind the keyword. -/
theorem Owns.exists_headed {own : List Lexeme} {i : Item} (h : Owns own i)
    (hbrackets : ∀ t ∈ own, t.kind = .open → t.text.length = 1)
    (hkind : i.kind.hasStrippableBody = true) (hbody : i.body.isSome) :
    ∃ front mods k after o inner, Headed own i front mods k after o inner := by
  obtain ⟨front, t, mid, last, rfl, hlast, hwaits, hword, hread⟩ := h.read
  obtain ⟨mods, hmods⟩ := keywordPlace_suffix last (t :: mid)
  rw [scanItem_eq] at hread
  split at hread
  · cases hread
  next hinvocation =>
  split at hread
  · cases hread
  next kind hkeyword =>
  dsimp only at hread
  have hitem := Option.some.inj (Prod.mk.inj hread).1
  obtain rfl : kind = i.kind := congrArg Item.kind hitem
  obtain ⟨k, behind, hplace⟩ : ∃ k behind, keywordPlace last (t :: mid) = k :: behind := by
    refine List.exists_cons_of_ne_nil fun hnil => ?_
    have hnone : keywordAt? [] = none := by decide
    rw [hnil, hnone] at hkeyword
    cases hkeyword
  rw [hplace] at hmods hinvocation hkeyword hitem
  rw [List.tail_cons, behindName_of_hasStrippableBody hkind, itemName?_of_hasStrippableBody hkind]
    at hitem
  obtain ⟨o, inner, hstop, ho, hstart, hname, hopening, hdocs⟩ := exists_opening hkind hitem hbody
  have hwhole : front ++ t :: mid = (front ++ mods) ++ k :: behind := by
    rw [← hmods, List.append_assoc]
  have hne : k ≠ o := by
    rintro rfl
    have hlength := hbrackets k (by rw [hwhole]; simp) ho
    have hlong := (ofKeyword?_shape (of_keywordAt? hkeyword hkind).1).1
    omega
  obtain ⟨after, rfl⟩ := header_suffix (hwhole ▸ hlast) hne hstop
  exact ⟨front, mods, k, after, o, inner, by rw [← hmods],
    .of_keyword hkind hwaits hword hmods hplace hinvocation hkeyword ho hstop, ho,
    hstart.trans (startAt_of_waits hmods), hopening, hname, hdocs, fits_of_seek hstop⟩

end LiveDoc.Item
