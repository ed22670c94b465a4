import LiveDoc.Proofs.Item.LookAhead

/-!
# One item

How one item is read from the place of its first word: the place of its keyword, its name, and its
extent.

* `scanItem_stays` — an item that something follows is the same whatever follows it;
* `scanItem_spans` — its span ends with its last token, and its body is the end of it.
-/

namespace LiveDoc.Item

variable {last : Lexeme} {kind : Kind}

/-! ## The parts of an item -/

/-- Whether a macro is invoked at the place of a keyword. -/
def isInvocation (keyword : List Lexeme) : Bool :=
  textAt keyword ≠ "macro_rules".toList && kindAt keyword.tail = some .bang

/-- The place behind the invocation of a macro. -/
def behindInvocation (last : Lexeme) (keyword : List Lexeme) : List Lexeme :=
  let opening := keyword.tail.tail
  let close := matchingClose last 0 opening
  if textAt opening ≠ ['{'] && kindAt close.tail = some .semicolon then close.tail.tail
  else close.tail

/-- The name of an item, from the place behind its keyword. -/
def itemName? (kind : Kind) (ts : List Lexeme) : Option String :=
  if kind.isNamed then nameAt? (namePlace kind ts) else none

/-- The place behind the name of an item, from the place behind its keyword. -/
def behindName (kind : Kind) (ts : List Lexeme) : List Lexeme :=
  if kind.isNamed then (namePlace kind ts).tail else ts

/-- The item that ends where its extent says. -/
def itemOf (last : Lexeme) (start : Nat) (kind : Kind) (name : Option String)
    (ends : List Lexeme × Option (List Lexeme)) : Item where
  kind := kind
  name := name
  span := ⟨start, endAt last ends.1⟩
  body := ends.2.map fun opening => ⟨startAt last opening, endAt last ends.1⟩
  innerDocs := (ends.2.map innerDocsAfter).getD []

theorem scanItem_eq (start : Nat) (ts : List Lexeme) : scanItem last start ts =
    if isInvocation (keywordPlace last ts) then (none, behindInvocation last (keywordPlace last ts))
    else
      match keywordAt? (keywordPlace last ts) with
      | none => (none, (keywordPlace last ts).tail)
      | some kind =>
        let behind := (keywordPlace last ts).tail
        let ends := extent last kind (behindName kind behind)
        (some (itemOf last start kind (itemName? kind behind) ends), ends.1.tail) := by
  unfold scanItem
  dsimp only
  split
  · next hinvocation =>
    have hinvoked : isInvocation (keywordPlace last ts) = true := hinvocation
    rw [if_pos hinvoked, behindInvocation]
    split
    · next hbrace => exact (congrArg (Prod.mk none) (if_pos hbrace)).symm
    · next hbrace => exact (congrArg (Prod.mk none) (if_neg hbrace)).symm
  · next hinvocation =>
    have hinvoked : ¬ isInvocation (keywordPlace last ts) = true := hinvocation
    rw [if_neg hinvoked]
    rfl

/-- What is read is told by its kind. -/
theorem eq_itemOf_of_scanItem {start : Nat} {ts after : List Lexeme} {item : Item}
    (h : scanItem last start ts = (some item, after)) :
    item = itemOf last start item.kind (itemName? item.kind (keywordPlace last ts).tail)
      (extent last item.kind (behindName item.kind (keywordPlace last ts).tail)) := by
  rw [scanItem_eq] at h
  split at h
  · cases h
  split at h
  · cases h
  next kind _ =>
  have hitem := Option.some.inj (Prod.mk.inj h).1
  obtain rfl : kind = item.kind := congrArg Item.kind hitem
  exact hitem.symm

/-! ## Going forward -/

theorem namePlace_suffix (kind : Kind) (ts : List Lexeme) : namePlace kind ts <:+ ts := by
  unfold namePlace
  repeat' split
  · exact List.tail_suffix ts
  · exact List.tail_suffix ts
  · exact List.suffix_refl ts

theorem behindName_suffix (kind : Kind) (ts : List Lexeme) : behindName kind ts <:+ ts := by
  unfold behindName
  split
  · exact (List.tail_suffix _).trans (namePlace_suffix kind ts)
  · exact List.suffix_refl ts

/-- Behind the end of an item is a place behind its start. -/
theorem tail_extent_suffix (last : Lexeme) (kind : Kind) (ts : List Lexeme) :
    (extent last kind ts).1.tail <:+ ts.tail := by
  unfold extent
  split
  · exact tail_semicolonFrom_suffix last 0 ts
  split
  · dsimp only
    split
    · exact tail_matchingClose_suffix last 0 ts
    · have hclose := tail_matchingClose_suffix last 0 ts
      have hstop := tail_semicolonFrom_suffix last 0 (matchingClose last 0 ts).tail
      exact hstop.trans ((List.tail_suffix _).trans hclose)
  · dsimp only
    split
    · have hstop := tail_bodyOrSemicolonFrom_suffix last 0 0 ts
      have hclose := tail_matchingClose_suffix last 0 (bodyOrSemicolonFrom last 0 0 ts)
      exact hclose.trans hstop
    · exact tail_bodyOrSemicolonFrom_suffix last 0 0 ts

theorem behindInvocation_suffix (last : Lexeme) (keyword : List Lexeme) :
    behindInvocation last keyword <:+ keyword.tail := by
  unfold behindInvocation
  dsimp only
  have hclose : (matchingClose last 0 keyword.tail.tail).tail <:+ keyword.tail :=
    (tail_matchingClose_suffix last 0 _).trans ((List.tail_suffix _).trans (List.tail_suffix _))
  split
  · exact (List.tail_suffix _).trans hclose
  · exact hclose

/-- **Reading an item goes forward**, whatever stands there. -/
theorem scanItem_suffix (last : Lexeme) (start : Nat) (ts : List Lexeme) :
    (scanItem last start ts).2 <:+ ts.tail := by
  have hkeyword := tail_suffix_tail (keywordPlace_suffix last ts)
  rw [scanItem_eq]
  split
  · exact (behindInvocation_suffix last _).trans hkeyword
  split
  · exact hkeyword
  · next kind _ =>
    have hends := tail_extent_suffix last kind (behindName kind (keywordPlace last ts).tail)
    have hbehind := behindName_suffix kind (keywordPlace last ts).tail
    exact hends.trans ((List.tail_suffix _).trans (hbehind.trans hkeyword))

/-! ## What stands behind an item -/

/-- Tokens whose texts tell braces: what is written as a brace opens a group. -/
def BracesOpen (ts : List Lexeme) : Prop := ∀ t ∈ ts, t.text = ['{'] → t.kind = .open

theorem extent_of_endsWithSemicolon (h : kind.endsWithSemicolon = true) (last : Lexeme)
    (ts : List Lexeme) : extent last kind ts = (semicolonFrom last 0 ts, none) := by
  rw [extent, if_pos h]

theorem extent_of_macroRules (last : Lexeme) (ts : List Lexeme) : extent last .macroRules ts =
    if textAt ts = ['{'] then (matchingClose last 0 ts, some ts)
    else (semicolonFrom last 0 (matchingClose last 0 ts).tail, none) := rfl

theorem extent_of_header (h : kind.endsWithSemicolon = false) (hplain : kind ≠ .macroRules)
    (last : Lexeme) (ts : List Lexeme) : extent last kind ts =
      if kindAt (bodyOrSemicolonFrom last 0 0 ts) = some .open then
        (matchingClose last 0 (bodyOrSemicolonFrom last 0 0 ts),
          some (bodyOrSemicolonFrom last 0 0 ts))
      else (bodyOrSemicolonFrom last 0 0 ts, none) := by
  rw [extent, if_neg (by simp [h]), if_neg hplain]

/-- What ends in front of `r` ends with the last token in front of it. -/
theorem getLast?_of_suffix {a r : List Lexeme} {z : Lexeme} (h : z :: r <:+ a ++ r) :
    a.getLast? = some z := by
  obtain ⟨front, hfront⟩ := h
  have ha : front ++ [z] = a := List.append_cancel_right (by simpa using hfront)
  rw [← ha, List.getLast?_append, List.getLast?_singleton]
  rfl

/-- Where the extent of an item ends in front of something, it is the same whatever follows: it ends
with `z`, and a body opens in front of that. -/
structure Ends (kind : Kind) (ts : List Lexeme) (z : Lexeme) (body : Option (List Lexeme)) :
    Prop where
  getLast_eq : ts.getLast? = some z
  last_kind : z.kind = .semicolon ∨ z.kind = .close
  opening : ∀ o ∈ body, kindAt o = some .open ∧ z ∈ o.tail
  extent_eq : ∀ last r, extent last kind (ts ++ r) = (z :: r, body.map (· ++ r))

variable {a r : List Lexeme} {z : Lexeme}

theorem Ends.of_endsWithSemicolon (hkind : kind.endsWithSemicolon = true)
    (h : semicolonFrom last 0 (a ++ r) = z :: r) (hr : r ≠ []) : Ends kind a z none := by
  obtain ⟨hsuffix, hsemicolon⟩ := semicolonFrom_found h hr
  refine ⟨getLast?_of_suffix hsuffix, .inl hsemicolon, nofun, fun last' r' => ?_⟩
  rw [extent_of_endsWithSemicolon hkind]
  exact congrArg (Prod.mk · none)
    (semicolonFrom_stays (b := [z]) h (List.cons_ne_nil z []) hr last' r')

/-- A group that ends in front of something has its end behind its start. -/
theorem mem_tail_of_matchingClose (hopen : kindAt a = some .open)
    (h : matchingClose last 0 (a ++ r) = z :: r) (hr : r ≠ []) : z ∈ a.tail := by
  cases a with
  | nil => cases hopen
  | cons o a =>
    have ho : o.kind = .open := Option.some.inj hopen
    have hinner : matchingClose last 1 (a ++ r) = z :: r := by
      rw [← h, List.cons_append, matchingClose, ho]
    exact List.mem_of_getLast? (getLast?_of_suffix (matchingClose_found hinner hr).1)

theorem Ends.of_macroRules_brace (hbraces : BracesOpen a) (hbrace : textAt (a ++ r) = ['{'])
    (h : matchingClose last 0 (a ++ r) = z :: r) (hr : r ≠ []) : Ends .macroRules a z (some a) := by
  obtain ⟨hsuffix, hclose⟩ := matchingClose_found h hr
  have hlast := getLast?_of_suffix hsuffix
  obtain ⟨o, b, rfl⟩ : ∃ o b, a = o :: b := by
    refine List.exists_cons_of_ne_nil ?_
    rintro rfl
    cases hlast
  have ho : o.kind = .open := hbraces o List.mem_cons_self hbrace
  refine ⟨hlast, .inr hclose, ?_, fun last' r' => ?_⟩
  · intro o' ho'
    obtain rfl := Option.some.inj ho'
    exact ⟨congrArg some ho, mem_tail_of_matchingClose (congrArg some ho) h hr⟩
  · have hsame : textAt (o :: b ++ r') = ['{'] := hbrace
    rw [extent_of_macroRules, if_pos hsame]
    exact congrArg (Prod.mk · _)
      (matchingClose_stays (b := [z]) h (List.cons_ne_nil z []) hr last' r')

theorem Ends.of_macroRules_group (hbrace : textAt (a ++ r) ≠ ['{'])
    (h : semicolonFrom last 0 (matchingClose last 0 (a ++ r)).tail = z :: r) (hr : r ≠ []) :
    Ends .macroRules a z none := by
  obtain ⟨hsuffix, hsemicolon⟩ := semicolonFrom_found h hr
  -- the group ends in front of the semicolon
  have hbehind : r <:+ (matchingClose last 0 (a ++ r)).tail.tail := tail_suffix_tail hsuffix
  obtain ⟨t, b, hb⟩ := exists_append_of_suffix_tail hbehind hr
  obtain ⟨c, hc⟩ : ∃ c, matchingClose last 0 (a ++ r) = c :: t :: b ++ r := by
    obtain ⟨c, rest, hclose⟩ : ∃ c rest, matchingClose last 0 (a ++ r) = c :: rest := by
      refine List.exists_cons_of_ne_nil fun hnil => ?_
      rw [hnil] at hb
      cases hb
    rw [hclose, List.tail_cons] at hb
    exact ⟨c, by rw [hclose, hb]; rfl⟩
  have hsame := matchingClose_stays hc (List.cons_ne_nil c _) (by simp)
  have hwhole : z :: r <:+ a ++ r :=
    hsuffix.trans ((tail_matchingClose_suffix last 0 (a ++ r)).trans (List.tail_suffix _))
  have hlast := getLast?_of_suffix hwhole
  obtain ⟨o, a, rfl⟩ : ∃ o b, a = o :: b := by
    refine List.exists_cons_of_ne_nil ?_
    rintro rfl
    cases hlast
  refine ⟨hlast, .inl hsemicolon, nofun, fun last' r' => ?_⟩
  have hother : ¬ textAt (o :: a ++ r') = ['{'] := hbrace
  rw [extent_of_macroRules, if_neg hother, hsame last' r']
  rw [hb] at h
  exact congrArg (Prod.mk · none)
    (semicolonFrom_stays (b := [z]) h (List.cons_ne_nil z []) hr last' r')

theorem Ends.of_semicolon (hkind : kind.endsWithSemicolon = false) (hplain : kind ≠ .macroRules)
    (h : bodyOrSemicolonFrom last 0 0 (a ++ r) = z :: r) (hopen : z.kind ≠ .open) (hr : r ≠ []) :
    Ends kind a z none := by
  obtain ⟨hsuffix, hstop⟩ := bodyOrSemicolonFrom_found h hr
  have hsemicolon : z.kind = .semicolon := hstop.resolve_right fun hbrace => hopen hbrace.1
  refine ⟨getLast?_of_suffix hsuffix, .inl hsemicolon, nofun, fun last' r' => ?_⟩
  have hsame : bodyOrSemicolonFrom last' 0 0 (a ++ r') = z :: r' :=
    bodyOrSemicolonFrom_stays (b := [z]) h (List.cons_ne_nil z []) hr last' r'
  have hother : ¬ kindAt (z :: r') = some .open := fun hz => hopen (Option.some.inj hz)
  rw [extent_of_header hkind hplain, hsame, if_neg hother]
  rfl

theorem Ends.of_body (hkind : kind.endsWithSemicolon = false) (hplain : kind ≠ .macroRules)
    (hopen : kindAt (bodyOrSemicolonFrom last 0 0 (a ++ r)) = some .open)
    (h : matchingClose last 0 (bodyOrSemicolonFrom last 0 0 (a ++ r)) = z :: r) (hr : r ≠ []) :
    ∃ body, Ends kind a z (some body) := by
  obtain ⟨hsuffix, hclose⟩ := matchingClose_found h hr
  have hbehind : r <:+ (bodyOrSemicolonFrom last 0 0 (a ++ r)).tail := tail_suffix_tail hsuffix
  obtain ⟨o, b, hbody⟩ := exists_append_of_suffix_tail hbehind hr
  have hsame := bodyOrSemicolonFrom_stays hbody (List.cons_ne_nil o b) (by simp [hr])
  rw [hbody] at hopen h hsuffix
  have hfirst : kindAt (o :: b) = some .open := hopen
  have hend := mem_tail_of_matchingClose hfirst h hr
  have hwhole : o :: b ++ r <:+ a ++ r := by
    rcases seek_suffix last (0, 0) (a ++ r) with hnone | hfound
    · rw [← bodyOrSemicolonFrom_eq_seek, hbody] at hnone
      simp [hr] at hnone
    · rwa [← bodyOrSemicolonFrom_eq_seek, hbody] at hfound
  refine ⟨o :: b, getLast?_of_suffix (hsuffix.trans hwhole), .inr hclose, ?_, fun last' r' => ?_⟩
  · intro o' ho'
    obtain rfl := Option.some.inj ho'
    exact ⟨hfirst, hend⟩
  · have hstill : kindAt (o :: b ++ r') = some .open := hopen
    rw [extent_of_header hkind hplain, hsame last' r', if_pos hstill]
    exact congrArg (Prod.mk · _)
      (matchingClose_stays (b := [z]) h (List.cons_ne_nil z []) hr last' r')

/-- **The extent of an item that something follows is the same whatever follows it.** -/
theorem exists_ends (hbraces : BracesOpen a) (h : (extent last kind (a ++ r)).1.tail = r)
    (hr : r ≠ []) : ∃ z body, Ends kind a z body := by
  -- the place where it ends is in front of `r`
  have hcons : ∀ s : List Lexeme, s.tail = r → ∃ z, s = z :: r := by
    intro s hs
    cases s with
    | nil => exact absurd hs.symm hr
    | cons z s => exact ⟨z, congrArg (z :: ·) hs⟩
  by_cases hkind : kind.endsWithSemicolon = true
  · rw [extent_of_endsWithSemicolon hkind] at h
    obtain ⟨z, hz⟩ := hcons _ h
    exact ⟨z, none, .of_endsWithSemicolon hkind hz hr⟩
  rw [Bool.not_eq_true] at hkind
  by_cases hmacro : kind = .macroRules
  · subst hmacro
    rw [extent_of_macroRules] at h
    split at h
    · next hbrace =>
      obtain ⟨z, hz⟩ := hcons _ h
      exact ⟨z, some a, .of_macroRules_brace hbraces hbrace hz hr⟩
    · next hbrace =>
      obtain ⟨z, hz⟩ := hcons _ h
      exact ⟨z, none, .of_macroRules_group hbrace hz hr⟩
  · rw [extent_of_header hkind hmacro] at h
    split at h
    · next hopen =>
      obtain ⟨z, hz⟩ := hcons _ h
      obtain ⟨body, hends⟩ := Ends.of_body hkind hmacro hopen hz hr
      exact ⟨z, some body, hends⟩
    · next hopen =>
      obtain ⟨z, hz⟩ := hcons _ h
      dsimp only at hz
      rw [hz] at hopen
      exact ⟨z, none, .of_semicolon hkind hmacro hz (fun hz => hopen (congrArg some hz)) hr⟩

/-- Whether a name stands behind the first token depends on that token only. -/
theorem namePlace_cons (kind : Kind) (t : Lexeme) : ∃ skips : Bool, ∀ rest,
    namePlace kind (t :: rest) = if skips then rest else t :: rest := by
  refine ⟨(kind = .static && t.isWord "mut") || (kind = .macroRules && t.kind = .bang), ?_⟩
  intro rest
  simp only [namePlace, isWordAt, kindAt, List.head?_cons, Option.any_some, Option.map_some,
    Option.some.injEq, List.tail_cons]
  by_cases hmut : (kind = .static && t.isWord "mut") = true
  · rw [hmut, Bool.true_or, if_pos rfl, if_pos rfl]
  · rw [Bool.not_eq_true] at hmut
    rw [hmut, Bool.false_or, if_neg Bool.false_ne_true]

/-- A name that something follows is the same whatever stands behind that. -/
theorem behindName_stays {c d : List Lexeme} (h : behindName kind (c ++ r) = d ++ r) (hd : d ≠ [])
    (r' : List Lexeme) : behindName kind (c ++ r') = d ++ r' ∧
      itemName? kind (c ++ r') = itemName? kind (c ++ r) := by
  have hpos := List.length_pos_iff.mpr hd
  unfold behindName itemName? at *
  split at h
  · next hnamed =>
    rw [if_pos hnamed, if_pos hnamed, if_pos hnamed]
    cases c with
    | nil =>
      have hle := ((List.tail_suffix _).trans (namePlace_suffix kind r)).length_le
      rw [List.nil_append] at h
      rw [h, List.length_append] at hle
      omega
    | cons t c =>
      obtain ⟨skips, hskips⟩ := namePlace_cons kind t
      simp only [List.cons_append, hskips] at h ⊢
      cases skips with
      | false =>
        have hrest : c = d := List.append_cancel_right h
        rw [hrest]
        exact ⟨rfl, rfl⟩
      | true =>
        -- the name is the second token
        cases c with
        | nil =>
          have hlength := congrArg List.length h
          simp only [if_true, List.nil_append, List.length_tail, List.length_append] at hlength
          omega
        | cons u c =>
          have hrest : c = d := List.append_cancel_right h
          rw [hrest]
          exact ⟨rfl, rfl⟩
  · next hnamed =>
    rw [if_neg hnamed, if_neg hnamed, if_neg hnamed, List.append_cancel_right h]
    exact ⟨rfl, rfl⟩

/-- Doc comments at the start of a body end in front of what is none. -/
theorem innerDocsAfter_append {o : List Lexeme} (hz : z ∈ o.tail) (hkind : z.kind ≠ .innerDoc)
    (r : List Lexeme) : innerDocsAfter (o ++ r) = innerDocsAfter o := by
  have hne : o ≠ [] := by
    rintro rfl
    cases hz
  have hstop : ¬ (o.tail.takeWhile (·.kind = .innerDoc)).length = o.tail.length := by
    intro hall
    rw [← (List.takeWhile_prefix _).eq_of_length hall] at hz
    exact hkind (of_decide_eq_true (List.all_eq_true.mp List.all_takeWhile z hz))
  rw [innerDocsAfter, innerDocsAfter, List.tail_append_of_ne_nil hne, List.takeWhile_append,
    if_neg hstop]

/-- What an item is does not depend on what stands behind its extent. -/
theorem Ends.itemOf_eq {body : Option (List Lexeme)} (h : Ends kind a z body) (start : Nat)
    (name : Option String) (last last' : Lexeme) (r r' : List Lexeme) :
    itemOf last start kind name (z :: r, body.map (· ++ r)) =
      itemOf last' start kind name (z :: r', body.map (· ++ r')) := by
  have hkind : z.kind ≠ .innerDoc := by
    rcases h.last_kind with hz | hz <;> rw [hz] <;> decide
  cases body with
  | none => rfl
  | some o =>
    obtain ⟨hopen, hz⟩ := h.opening o rfl
    have hdocs : innerDocsAfter (o ++ r) = innerDocsAfter (o ++ r') := by
      rw [innerDocsAfter_append hz hkind, innerDocsAfter_append hz hkind]
    have hstart : startAt last (o ++ r) = startAt last' (o ++ r') := by
      cases o with
      | nil => cases hopen
      | cons t o => rfl
    simp only [itemOf, Option.map_some, Option.getD_some, hdocs, hstart]
    rfl

theorem suffix_of_append_suffix {b : List Lexeme} (h : a ++ r <:+ b ++ r) : a <:+ b := by
  obtain ⟨front, hfront⟩ := h
  rw [← List.append_assoc] at hfront
  exact ⟨front, List.append_cancel_right hfront⟩

/-- The keyword of an item stays the keyword. -/
theorem settled_of_ends {k u : Lexeme} {c : List Lexeme} (h : modifier? (k :: u :: c ++ r) = none)
    (hlast : (u :: c).getLast? = some z) (hkind : z.kind ≠ .literal) : Settled (k :: u :: c) := by
  intro r'
  refine (modifier?_pair fun _ hu => ?_).trans h
  cases c with
  | nil =>
    obtain rfl : u = z := Option.some.inj hlast
    exact absurd hu hkind
  | cons v c => rfl

/-- **An item that something follows is the same whatever follows it.** -/
theorem scanItem_stays {own : List Lexeme} {start : Nat} {item : Item} (hbraces : BracesOpen own)
    (h : scanItem last start (own ++ r) = (some item, r)) (hr : r ≠ []) (last' : Lexeme)
    (r' : List Lexeme) : scanItem last' start (own ++ r') = (some item, r') := by
  rw [scanItem_eq] at h
  split at h
  · cases h
  next hinvocation =>
  split at h
  · cases h
  next kind hkeyword =>
  dsimp only at h
  obtain ⟨hitem, hafter⟩ := Prod.mk.inj h
  -- the places on the way from the end of the item back to its keyword
  have hend := tail_extent_suffix last kind (behindName kind (keywordPlace last (own ++ r)).tail)
  rw [hafter] at hend
  obtain ⟨t, d, hd⟩ := exists_append_of_suffix_tail hend hr
  obtain ⟨x, hx⟩ := behindName_suffix kind (keywordPlace last (own ++ r)).tail
  rw [hd, ← List.append_assoc] at hx
  obtain ⟨k, u, c, hplace, hc⟩ : ∃ k u c, keywordPlace last (own ++ r) = k :: u :: c ++ r ∧
      u :: c = x ++ t :: d := by
    cases hcase : keywordPlace last (own ++ r) with
    | nil => simp [hcase] at hx
    | cons k rest =>
      obtain ⟨u, c, hc⟩ : ∃ u c, x ++ t :: d = u :: c := List.exists_cons_of_ne_nil (by simp)
      rw [hcase, List.tail_cons, hc] at hx
      exact ⟨k, u, c, by rw [← hx]; rfl, hc.symm⟩
  have hown : k :: u :: c <:+ own :=
    suffix_of_append_suffix (hplace ▸ keywordPlace_suffix last (own ++ r))
  rw [hplace] at hinvocation hkeyword hitem hafter hd
  rw [List.cons_append, List.tail_cons] at hitem hafter hd
  -- the extent behind the name
  have hd_suffix : t :: d <:+ own := by
    refine List.IsSuffix.trans ?_ ((List.suffix_cons k (u :: c)).trans hown)
    exact ⟨x, hc.symm⟩
  rw [hd] at hitem hafter
  obtain ⟨z, body, hends⟩ := exists_ends (fun s hs => hbraces s (hd_suffix.subset hs)) hafter hr
  have hlast : (u :: c).getLast? = some z := by
    rw [hc, List.getLast?_append, hends.getLast_eq]
    rfl
  have hsettled : Settled (k :: u :: c) := by
    refine settled_of_ends (hplace ▸ modifier?_keywordPlace last (own ++ r)) hlast ?_
    rcases hends.last_kind with hz | hz <;> rw [hz] <;> decide
  -- all of it is the same in front of `r'`
  obtain ⟨hd', hname⟩ := behindName_stays (c := u :: c) hd (List.cons_ne_nil t d) r'
  have hplace' := keywordPlace_stays hplace (List.cons_ne_nil k _) hsettled last' r'
  have hinvocation' : ¬ isInvocation (k :: u :: c ++ r') = true := hinvocation
  have hkeyword' : keywordAt? (k :: u :: c ++ r') = some kind := hkeyword
  rw [scanItem_eq, hplace', if_neg hinvocation', hkeyword']
  dsimp only
  rw [List.cons_append, List.tail_cons, hd', hname, hends.extent_eq]
  rw [hends.extent_eq, hends.itemOf_eq start _ last last' r r'] at hitem
  exact Prod.ext hitem rfl

/-! ## The spans of an item -/

section Spans

variable {own ts : List Lexeme}

/-- Where an item ends, and where its body opens, are places in the file. -/
theorem extent_suffix (hlast : [last] <:+ own) (hts : ts <:+ own) (hbraces : BracesOpen own)
    (kind : Kind) : (extent last kind ts).1 ≠ [] ∧ (extent last kind ts).1 <:+ own ∧
      ∀ opening ∈ (extent last kind ts).2, opening <:+ own ∧ kindAt opening = some .open := by
  have hclose : ∀ s, s <:+ own → matchingClose last 0 s ≠ [] ∧ matchingClose last 0 s <:+ own := by
    intro s hs
    rw [matchingClose_eq_seek]
    exact seek_place hlast hs 0
  have hsemicolon : ∀ s, s <:+ own → semicolonFrom last 0 s ≠ [] ∧
    semicolonFrom last 0 s <:+ own := by
    intro s hs
    rw [semicolonFrom_eq_seek]
    exact seek_place hlast hs 0
  have hstop : bodyOrSemicolonFrom last 0 0 ts ≠ [] ∧ bodyOrSemicolonFrom last 0 0 ts <:+ own := by
    rw [bodyOrSemicolonFrom_eq_seek]
    exact seek_place hlast hts (0, 0)
  by_cases hkind : kind.endsWithSemicolon = true
  · rw [extent_of_endsWithSemicolon hkind]
    exact ⟨(hsemicolon ts hts).1, (hsemicolon ts hts).2, nofun⟩
  rw [Bool.not_eq_true] at hkind
  by_cases hmacro : kind = .macroRules
  · subst hmacro
    rw [extent_of_macroRules]
    split
    · next hbrace =>
      refine ⟨(hclose ts hts).1, (hclose ts hts).2, fun opening hopening => ?_⟩
      obtain rfl := Option.some.inj hopening
      cases ts with
      | nil => cases hbrace
      | cons t ts =>
        exact ⟨hts, congrArg some (hbraces t (hts.subset List.mem_cons_self) hbrace)⟩
    · have hbehind := (List.tail_suffix (matchingClose last 0 ts)).trans (hclose ts hts).2
      exact ⟨(hsemicolon _ hbehind).1, (hsemicolon _ hbehind).2, nofun⟩
  · rw [extent_of_header hkind hmacro]
    split
    · next hopen =>
      refine ⟨(hclose _ hstop.2).1, (hclose _ hstop.2).2, fun opening hopening => ?_⟩
      obtain rfl := Option.some.inj hopening
      exact ⟨hstop.2, hopen⟩
    · exact ⟨hstop.1, hstop.2, nofun⟩

/-- The spans of an item that starts at `start`, by its tokens from its first word on. -/
structure Spans (start : Nat) (own : List Lexeme) (last : Lexeme) (item : Item) : Prop where
  span : item.span = ⟨start, last.span.stop⟩
  body : item.body = none ∧ item.innerDocs = [] ∨
    ∃ header o inner, own = header ++ o :: inner ∧ header ≠ [] ∧ o.kind = .open ∧
      item.body = some ⟨o.span.start, last.span.stop⟩ ∧
      item.innerDocs = (inner.takeWhile (·.kind = .innerDoc)).map (·.span)

/-- **An item spans its tokens**, and its body is the end of it. -/
theorem scanItem_spans {start : Nat} {item : Item} (hbraces : BracesOpen own)
    (hword : kindAt own = some .word) (hlast : own.getLast? = some last)
    (h : scanItem last start own = (some item, [])) : Spans start own last item := by
  rw [scanItem_eq] at h
  split at h
  · cases h
  split at h
  · cases h
  next kind _ =>
  dsimp only at h
  obtain ⟨hitem, hafter⟩ := Prod.mk.inj h
  obtain ⟨init, hinit⟩ := List.getLast?_eq_some_iff.mp hlast
  have hend : [last] <:+ own := ⟨init, hinit.symm⟩
  have hbehind : behindName kind (keywordPlace last own).tail <:+ own :=
    (behindName_suffix kind _).trans ((List.tail_suffix _).trans (keywordPlace_suffix last own))
  obtain ⟨hne, hstop, hbody⟩ := extent_suffix hend hbehind hbraces kind
  -- nothing is left, so the item ends with the last token
  have hstop_eq : (extent last kind (behindName kind (keywordPlace last own).tail)).1 = [last] := by
    obtain ⟨z, rest, hz⟩ := List.exists_cons_of_ne_nil hne
    rw [hz, List.tail_cons] at hafter
    rw [hz, hafter] at hstop ⊢
    obtain ⟨front, hfront⟩ := hstop
    have hsame := List.append_inj' (hfront.trans hinit) rfl
    rw [hsame.2]
  have hitem := Option.some.inj hitem
  rw [← hitem]
  refine ⟨?_, ?_⟩
  · rw [itemOf, hstop_eq]
    rfl
  cases hopening : (extent last kind (behindName kind (keywordPlace last own).tail)).2 with
  | none =>
    refine .inl ?_
    rw [itemOf, hopening]
    exact ⟨rfl, rfl⟩
  | some opening =>
    obtain ⟨⟨header, hheader⟩, hopen⟩ := hbody opening hopening
    cases opening with
    | nil => cases hopen
    | cons o inner =>
      refine .inr ⟨header, o, inner, hheader.symm, ?_, Option.some.inj hopen, ?_, ?_⟩
      · rintro rfl
        rw [← hheader, List.nil_append, hopen] at hword
        cases hword
      · rw [itemOf, hopening, hstop_eq]
        rfl
      · rw [itemOf, hopening]
        rfl

end Spans

end LiveDoc.Item
