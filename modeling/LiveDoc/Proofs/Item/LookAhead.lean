import LiveDoc.Item.Scan
import Mathlib.Data.List.Infix

/-!
# Looking ahead

The three ways to look ahead are one search: they go over the tokens with what is open, and stop at
the first token that ends what they look for (`seek`). Where such a token is found, what stands
behind it does not count (`seek_stays`). The same holds of the modifiers in front of a keyword, each
of which is told by the first three tokens from its place (`modifier?`, `keywordPlace_stays`).
-/

namespace LiveDoc.Item

/-! ## Places

A place among the tokens is the list of tokens from there on, so a place behind another is a suffix
of it. -/

theorem tail_suffix_tail {a b : List Lexeme} (h : a <:+ b) : a.tail <:+ b.tail := by
  obtain ⟨front, rfl⟩ := h
  cases front with
  | nil => exact List.suffix_refl _
  | cons t front => exact (List.tail_suffix a).trans (List.suffix_append front a)

/-- A place with something in front of another place. -/
theorem exists_append_of_suffix_tail {a r : List Lexeme} (h : r <:+ a.tail) (hr : r ≠ []) :
    ∃ t b, a = t :: b ++ r := by
  obtain ⟨b, hb⟩ := h
  cases a with
  | nil =>
    rw [List.tail_nil, List.append_eq_nil_iff] at hb
    exact absurd hb.2 hr
  | cons t a => exact ⟨t, b, by rw [List.cons_append, hb, List.tail_cons]⟩

/-! ## Searching -/

section Seek

variable {σ : Type} {stops : σ → Lexeme → Bool} {next : σ → Lexeme → σ} {last last' : Lexeme}

/-- The place of the first token where a search stops, which goes over the others with `next`. Where
there is none, the place of the last token of the file. -/
def seek (stops : σ → Lexeme → Bool) (next : σ → Lexeme → σ) (last : Lexeme) :
    σ → List Lexeme → List Lexeme
  | _, [] => [last]
  | s, t :: rest => if stops s t then t :: rest else seek stops next last (next s t) rest

theorem seek_ne_nil (last : Lexeme) (s : σ) (ts : List Lexeme) :
    seek stops next last s ts ≠ [] := by
  induction ts generalizing s with
  | nil => exact List.cons_ne_nil last []
  | cons t rest ih =>
    rw [seek]
    split
    · exact List.cons_ne_nil t rest
    · exact ih (next s t)

/-- Tokens that a search goes over without a stop. -/
def Passes (stops : σ → Lexeme → Bool) (next : σ → Lexeme → σ) : σ → List Lexeme → Prop
  | _, [] => True
  | s, t :: rest => stops s t = false ∧ Passes stops next (next s t) rest

/-- A search passes everything and ends with the last token, or it passes what stands in front of
the token where it stops. -/
theorem seek_cases (last : Lexeme) (s : σ) (ts : List Lexeme) :
    (Passes stops next s ts ∧ seek stops next last s ts = [last]) ∨
      ∃ front t back, ts = front ++ t :: back ∧ Passes stops next s front ∧
        stops (front.foldl next s) t = true ∧ seek stops next last s ts = t :: back := by
  induction ts generalizing s with
  | nil => exact .inl ⟨trivial, rfl⟩
  | cons t rest ih =>
    rw [seek]
    split
    · next hstop => exact .inr ⟨[], t, rest, rfl, trivial, hstop, rfl⟩
    · next hpassed =>
      have hpassed := Bool.eq_false_iff.mpr hpassed
      rcases ih (next s t) with ⟨hall, hnone⟩ | ⟨front, u, back, rfl, hfront, hstop, hseek⟩
      · exact .inl ⟨⟨hpassed, hall⟩, hnone⟩
      · exact .inr ⟨t :: front, u, back, rfl, ⟨hpassed, hfront⟩, hstop, hseek⟩

/-- A search ends at a token where it stops, or with the last token. -/
theorem seek_stop (last : Lexeme) (s : σ) (ts : List Lexeme) : seek stops next last s ts = [last] ∨
    ∃ front t back s', ts = front ++ t :: back ∧ stops s' t = true ∧
      seek stops next last s ts = t :: back := by
  rcases seek_cases last s ts with ⟨-, hnone⟩ | ⟨front, t, back, rfl, -, hstop, hseek⟩
  · exact .inl hnone
  · exact .inr ⟨front, t, back, _, rfl, hstop, hseek⟩

/-- A search ends at a place behind its start, or with the last token. -/
theorem seek_suffix (last : Lexeme) (s : σ) (ts : List Lexeme) :
    seek stops next last s ts = [last] ∨ seek stops next last s ts <:+ ts := by
  rcases seek_stop last s ts with hnone | ⟨front, t, back, s', rfl, hstop, hseek⟩
  · exact .inl hnone
  · rw [hseek]
    exact .inr (List.suffix_append front _)

/-- Where the last token of the file is at hand, a search ends at a place. -/
theorem seek_place {own ts : List Lexeme} (hlast : [last] <:+ own) (hts : ts <:+ own) (s : σ) :
    seek stops next last s ts ≠ [] ∧ seek stops next last s ts <:+ own := by
  refine ⟨seek_ne_nil last s ts, ?_⟩
  rcases seek_suffix last s ts with hnone | hfound
  · rwa [hnone]
  · exact hfound.trans hts

/-- A search that ends in front of something has found what it looked for. -/
theorem seek_found {s : σ} {ts rest : List Lexeme} {t : Lexeme}
    (h : seek stops next last s ts = t :: rest) (hrest : rest ≠ []) :
    t :: rest <:+ ts ∧ ∃ s', stops s' t = true := by
  rcases seek_stop last s ts with hnone | ⟨front, u, back, s', rfl, hstop, hseek⟩
  · rw [h] at hnone
    exact absurd (List.cons.inj hnone).2 hrest
  · obtain ⟨rfl, rfl⟩ := List.cons.inj (h.symm.trans hseek)
    exact ⟨List.suffix_append front _, s', hstop⟩

/-- Behind the end of a search is a place behind its start. -/
theorem tail_seek_suffix (last : Lexeme) (s : σ) (ts : List Lexeme) :
    (seek stops next last s ts).tail <:+ ts.tail := by
  rcases seek_stop last s ts with hnone | ⟨front, t, back, s', rfl, hstop, hseek⟩
  · rw [hnone]
    exact List.nil_suffix
  · rw [hseek]
    cases front with
    | nil => exact List.suffix_refl _
    | cons f front => exact ⟨front ++ [t], by simp⟩

/-- **What stands behind the end of a search does not count.** That there is something behind it
tells that it is no last token. -/
theorem seek_stays {s : σ} {a b r : List Lexeme} (h : seek stops next last s (a ++ r) = b ++ r)
    (hb : b ≠ []) (hr : b.tail ++ r ≠ []) (last' : Lexeme) (r' : List Lexeme) :
    seek stops next last' s (a ++ r') = b ++ r' := by
  induction a generalizing s with
  | nil =>
    rw [List.nil_append] at h
    -- an end behind the whole of `a` leaves less than `r`
    have hlength := (h ▸ tail_seek_suffix last s r : (b ++ r).tail <:+ r.tail).length_le
    have hpos := List.length_pos_iff.mpr hr
    rw [List.tail_append_of_ne_nil hb, List.length_tail] at hlength
    rw [List.length_append] at hlength hpos
    omega
  | cons t a ih =>
    rw [List.cons_append, seek] at h ⊢
    split at h
    · next hstop =>
      have hfront : t :: a = b := List.append_cancel_right h
      rw [if_pos hstop, ← hfront, List.cons_append]
    · next hstop =>
      rw [if_neg hstop]
      exact ih h

theorem passes_append {s : σ} {a b : List Lexeme} : Passes stops next s (a ++ b) ↔
    Passes stops next s a ∧ Passes stops next (a.foldl next s) b := by
  induction a generalizing s with
  | nil => exact ⟨fun h => ⟨trivial, h⟩, fun h => h.2⟩
  | cons t a ih => rw [List.cons_append, Passes, Passes, ih, List.foldl_cons, and_assoc]

/-- A search goes on behind what it passes. -/
theorem seek_of_passes {s : σ} {a : List Lexeme} (h : Passes stops next s a) (last : Lexeme)
    (ts : List Lexeme) :
    seek stops next last s (a ++ ts) = seek stops next last (a.foldl next s) ts := by
  induction a generalizing s with
  | nil => rfl
  | cons t a ih =>
    rw [List.cons_append, seek, h.1, List.foldl_cons]
    exact ih h.2

/-- What stands in front of the place where a search ends is passed. -/
theorem passes_of_seek {s : σ} {a r : List Lexeme} {t : Lexeme}
    (h : seek stops next last s (a ++ t :: r) = t :: r) : Passes stops next s a := by
  induction a generalizing s with
  | nil => trivial
  | cons u a ih =>
    rw [List.cons_append, seek] at h
    split at h
    · have hlength := congrArg List.length h
      simp only [List.length_cons, List.length_append] at hlength
      omega
    · next hstop => exact ⟨Bool.eq_false_iff.mpr hstop, ih h⟩

/-- A search that ends where it starts, in front of something, stops there. -/
theorem stops_of_seek {s : σ} {r : List Lexeme} {t : Lexeme}
    (h : seek stops next last s (t :: r) = t :: r) (hr : r ≠ []) : stops s t = true := by
  by_contra hstop
  rw [seek, if_neg hstop] at h
  have hlength := (h ▸ tail_seek_suffix last (next s t) r : (t :: r).tail <:+ r.tail).length_le
  have hpos := List.length_pos_iff.mpr hr
  rw [List.tail_cons, List.length_tail] at hlength
  omega

end Seek

/-! ## The ends of groups, of items without a body, and of headers -/

section Ends

variable {last : Lexeme}

/-- How many groups are open behind a token. -/
def depthBehind (depth : Nat) (t : Lexeme) : Nat :=
  match t.kind with
  | .open => depth + 1
  | .close => depth - 1
  | _ => depth

/-- Whether a token closes the outermost of the open groups. -/
def closes (depth : Nat) (t : Lexeme) : Bool := t.kind = .close && depth ≤ 1

theorem matchingClose_eq_seek (depth : Nat) (ts : List Lexeme) :
    matchingClose last depth ts = seek closes depthBehind last depth ts := by
  induction ts generalizing depth with
  | nil => rfl
  | cons t rest ih =>
    rw [matchingClose, seek, closes, depthBehind]
    split <;> simp_all

/-- Whether a token ends an item without a body. -/
def endsItem (depth : Nat) (t : Lexeme) : Bool := t.kind = .semicolon && depth = 0

theorem semicolonFrom_eq_seek (depth : Nat) (ts : List Lexeme) :
    semicolonFrom last depth ts = seek endsItem depthBehind last depth ts := by
  induction ts generalizing depth with
  | nil => rfl
  | cons t rest ih =>
    rw [semicolonFrom, seek, endsItem, depthBehind]
    split <;> simp_all

/-- How many groups and angle brackets are open behind a token. Angle brackets count only outside of
groups. -/
def openBehind (opened : Nat × Nat) (t : Lexeme) : Nat × Nat :=
  match t.kind with
  | .open => (opened.1 + 1, opened.2)
  | .close => (opened.1 - 1, opened.2)
  | .angleOpen => (opened.1, if opened.1 = 0 then opened.2 + 1 else opened.2)
  | .angleClose => (opened.1, if opened.1 = 0 then opened.2 - 1 else opened.2)
  | _ => opened

/-- Whether a token ends a header. -/
def endsHeader (opened : Nat × Nat) (t : Lexeme) : Bool :=
  opened.1 = 0 && opened.2 = 0 && (t.kind = .semicolon || (t.kind = .open && t.text = ['{']))

theorem bodyOrSemicolonFrom_eq_seek (depth angles : Nat) (ts : List Lexeme) :
    bodyOrSemicolonFrom last depth angles ts = seek endsHeader openBehind last
      (depth, angles) ts := by
  induction ts generalizing depth angles with
  | nil => rfl
  | cons t rest ih =>
    rw [bodyOrSemicolonFrom, seek, endsHeader, openBehind]
    split <;> simp_all [Bool.and_assoc]

theorem tail_matchingClose_suffix (last : Lexeme) (depth : Nat) (ts : List Lexeme) :
    (matchingClose last depth ts).tail <:+ ts.tail := by
  rw [matchingClose_eq_seek]
  exact tail_seek_suffix last depth ts

theorem tail_semicolonFrom_suffix (last : Lexeme) (depth : Nat) (ts : List Lexeme) :
    (semicolonFrom last depth ts).tail <:+ ts.tail := by
  rw [semicolonFrom_eq_seek]
  exact tail_seek_suffix last depth ts

theorem tail_bodyOrSemicolonFrom_suffix (last : Lexeme) (depth angles : Nat) (ts : List Lexeme) :
    (bodyOrSemicolonFrom last depth angles ts).tail <:+ ts.tail := by
  rw [bodyOrSemicolonFrom_eq_seek]
  exact tail_seek_suffix last (depth, angles) ts

theorem matchingClose_found {depth : Nat} {ts rest : List Lexeme} {t : Lexeme}
    (h : matchingClose last depth ts = t :: rest) (hrest : rest ≠ []) :
    t :: rest <:+ ts ∧ t.kind = .close := by
  rw [matchingClose_eq_seek] at h
  obtain ⟨hsuffix, s, hstop⟩ := seek_found h hrest
  exact ⟨hsuffix, of_decide_eq_true (Bool.and_eq_true_iff.mp hstop).1⟩

theorem semicolonFrom_found {depth : Nat} {ts rest : List Lexeme} {t : Lexeme}
    (h : semicolonFrom last depth ts = t :: rest) (hrest : rest ≠ []) :
    t :: rest <:+ ts ∧ t.kind = .semicolon := by
  rw [semicolonFrom_eq_seek] at h
  obtain ⟨hsuffix, s, hstop⟩ := seek_found h hrest
  exact ⟨hsuffix, of_decide_eq_true (Bool.and_eq_true_iff.mp hstop).1⟩

theorem bodyOrSemicolonFrom_found {depth angles : Nat} {ts rest : List Lexeme} {t : Lexeme}
    (h : bodyOrSemicolonFrom last depth angles ts = t :: rest) (hrest : rest ≠ []) :
    t :: rest <:+ ts ∧ (t.kind = .semicolon ∨ t.kind = .open ∧ t.text = ['{']) := by
  rw [bodyOrSemicolonFrom_eq_seek] at h
  obtain ⟨hsuffix, s, hstop⟩ := seek_found h hrest
  refine ⟨hsuffix, ?_⟩
  simpa [endsHeader] using (Bool.and_eq_true_iff.mp hstop).2

variable {a b r : List Lexeme}

theorem matchingClose_stays {depth : Nat} (h : matchingClose last depth (a ++ r) = b ++ r)
    (hb : b ≠ []) (hr : b.tail ++ r ≠ []) (last' : Lexeme) (r' : List Lexeme) :
    matchingClose last' depth (a ++ r') = b ++ r' := by
  rw [matchingClose_eq_seek] at h ⊢
  exact seek_stays h hb hr last' r'

theorem semicolonFrom_stays {depth : Nat} (h : semicolonFrom last depth (a ++ r) = b ++ r)
    (hb : b ≠ []) (hr : b.tail ++ r ≠ []) (last' : Lexeme) (r' : List Lexeme) :
    semicolonFrom last' depth (a ++ r') = b ++ r' := by
  rw [semicolonFrom_eq_seek] at h ⊢
  exact seek_stays h hb hr last' r'

theorem bodyOrSemicolonFrom_stays {depth angles : Nat}
    (h : bodyOrSemicolonFrom last depth angles (a ++ r) = b ++ r) (hb : b ≠ [])
    (hr : b.tail ++ r ≠ []) (last' : Lexeme) (r' : List Lexeme) :
    bodyOrSemicolonFrom last' depth angles (a ++ r') = b ++ r' := by
  rw [bodyOrSemicolonFrom_eq_seek] at h ⊢
  exact seek_stays h hb hr last' r'

theorem skipGroup_suffix (last : Lexeme) (ts : List Lexeme) : skipGroup last ts <:+ ts.tail :=
  tail_matchingClose_suffix last 0 ts

/-- A group that something follows is skipped whatever follows it. -/
theorem skipGroup_stays (h : skipGroup last (a ++ r) = b ++ r) (hb : b ≠ []) (last' : Lexeme)
    (r' : List Lexeme) : skipGroup last' (a ++ r') = b ++ r' := by
  -- the group ends with a token in front of what follows
  obtain ⟨c, rest, hclose⟩ : ∃ c rest, matchingClose last 0 (a ++ r) = c :: rest := by
    rw [matchingClose_eq_seek]
    exact List.exists_cons_of_ne_nil (seek_ne_nil last 0 (a ++ r))
  unfold skipGroup at h ⊢
  rw [hclose, List.tail_cons] at h
  rw [h, ← List.cons_append] at hclose
  rw [matchingClose_stays hclose (List.cons_ne_nil c b)
    (List.append_ne_nil_of_left_ne_nil hb r) last' r']
  rfl

end Ends

/-! ## Modifiers -/

section Modifiers

variable {last : Lexeme}

/-- What a modifier takes: a word, a word with the literal behind it, or a word with the group
behind it, if there is one. -/
inductive Modifier where
  | word
  | literal
  | group

/-- Whether `extern` with the name of an interface behind it stands at a place, as a modifier. It
takes a third token to tell. -/
def isInterface (ts : List Lexeme) : Bool :=
  textAt ts = "extern".toList && kindAt ts.tail = some .literal &&
    !isWordAt "crate" ts.tail.tail && kindAt ts.tail.tail ≠ some .open

/-- The modifier at a place. -/
def modifier? (ts : List Lexeme) : Option Modifier :=
  if textAt ts = "pub".toList then
    if kindAt ts.tail = some .open && textAt ts.tail = ['('] then some .group else some .word
  else if textAt ts = "const".toList &&
      ["fn", "unsafe", "async", "extern"].any (isWordAt · ts.tail) then some .word
  else if isInterface ts then some .literal
  else if textAt ts = "extern".toList && isWordAt "fn" ts.tail then some .word
  else if ["async", "unsafe", "default", "auto", "safe"].any (·.toList = textAt ts) &&
      kindAt ts.tail = some .word then some .word
  else none

/-- The place behind a modifier. -/
def Modifier.behind (last : Lexeme) (ts : List Lexeme) : Modifier → List Lexeme
  | word => ts.tail
  | literal => ts.tail.tail
  | group => skipGroup last ts.tail

theorem skipModifiers_succ (fuel : Nat) (ts : List Lexeme) : skipModifiers last (fuel + 1) ts =
    match modifier? ts with
    | some m => skipModifiers last fuel (m.behind last ts)
    | none => ts := by
  rw [skipModifiers, modifier?, isInterface]
  split
  · split <;> rfl
  iterate 4
    split
    · rfl
  rfl

theorem Modifier.behind_suffix (last : Lexeme) (m : Modifier) (ts : List Lexeme) :
    m.behind last ts <:+ ts.tail := by
  cases m with
  | word => exact List.suffix_refl _
  | literal => exact List.tail_suffix _
  | group => exact (skipGroup_suffix last ts.tail).trans (List.tail_suffix _)

/-- There is no modifier at the end of the file. -/
theorem ne_nil_of_modifier? {ts : List Lexeme} {m : Modifier} (h : modifier? ts = some m) :
    ts ≠ [] := by
  rintro rfl
  have hnone : modifier? [] = none := by decide
  rw [hnone] at h
  cases h

theorem Modifier.length_behind_lt (last : Lexeme) {ts : List Lexeme} {m : Modifier}
    (h : modifier? ts = some m) :
    (m.behind last ts).length < ts.length := by
  have hle := (m.behind_suffix last ts).length_le
  have hpos := List.length_pos_iff.mpr (ne_nil_of_modifier? h)
  rw [List.length_tail] at hle
  omega

/-- The place behind all modifiers. -/
def keywordPlace (last : Lexeme) (ts : List Lexeme) : List Lexeme :=
  skipModifiers last (ts.length + 1) ts

/-- More fuel than tokens changes nothing. -/
theorem skipModifiers_eq_keywordPlace {ts : List Lexeme} {fuel : Nat} (h : ts.length < fuel) :
    skipModifiers last fuel ts = keywordPlace last ts := by
  suffices hany : ∀ m n, ts.length < m → ts.length < n →
      skipModifiers last m ts = skipModifiers last n ts from
    hany fuel (ts.length + 1) h (Nat.lt_succ_self _)
  clear h
  intro m
  induction m generalizing ts with
  | zero => exact fun n hm => absurd hm (Nat.not_lt_zero _)
  | succ m ih =>
    intro n hm hn
    obtain ⟨n, rfl⟩ : ∃ k, n = k + 1 := ⟨n - 1, by omega⟩
    rw [skipModifiers_succ, skipModifiers_succ]
    cases hmodifier : modifier? ts with
    | none => rfl
    | some modifier =>
      have hlt := modifier.length_behind_lt last hmodifier
      exact ih n (by omega) (by omega)

theorem keywordPlace_eq (ts : List Lexeme) : keywordPlace last ts =
    match modifier? ts with
    | some m => keywordPlace last (m.behind last ts)
    | none => ts := by
  rw [keywordPlace, skipModifiers_succ]
  cases hmodifier : modifier? ts with
  | none => rfl
  | some m => exact skipModifiers_eq_keywordPlace (m.length_behind_lt last hmodifier)

theorem keywordPlace_suffix (last : Lexeme) (ts : List Lexeme) : keywordPlace last ts <:+ ts := by
  induction hn : ts.length using Nat.strongRecOn generalizing ts with
  | _ n ih =>
    rw [keywordPlace_eq]
    cases hmodifier : modifier? ts with
    | none => exact List.suffix_refl ts
    | some m =>
      have hlt := m.length_behind_lt last hmodifier
      have hbehind : m.behind last ts <:+ ts :=
        (m.behind_suffix last ts).trans (List.tail_suffix ts)
      exact (ih _ (hn ▸ hlt) _ rfl).trans hbehind

/-- Behind all modifiers stands none. -/
theorem modifier?_keywordPlace (last : Lexeme) (ts : List Lexeme) :
    modifier? (keywordPlace last ts) = none := by
  induction hn : ts.length using Nat.strongRecOn generalizing ts with
  | _ n ih =>
    rw [keywordPlace_eq]
    cases hmodifier : modifier? ts with
    | none => exact hmodifier
    | some m => exact ih _ (hn ▸ m.length_behind_lt last hmodifier) _ rfl

/-- With a literal behind it, `extern` is the word of an interface or no modifier. -/
theorem modifier?_extern {t u : Lexeme} {rest : List Lexeme} {m : Modifier}
    (h : modifier? (t :: u :: rest) = some m) (ht : t.text = "extern".toList)
    (hu : u.kind = .literal) : m = .literal := by
  have htext : textAt (t :: u :: rest) = "extern".toList := ht
  have hne : ∀ s ∈ ["pub", "const"], "extern".toList ≠ s.toList := by decide
  have hany : ["async", "unsafe", "default", "auto", "safe"].any
      (fun s => decide (s.toList = "extern".toList)) = false := by decide
  have hfn : isWordAt "fn" (u :: rest) = false := by simp [isWordAt, Lexeme.isWord, hu]
  simp only [modifier?, htext, hne "pub" (by simp), hne "const" (by simp), hany, List.tail_cons,
    hfn, if_false, decide_false, Bool.false_and, Bool.and_false, Bool.false_eq_true] at h
  split at h
  · exact (Option.some.inj h).symm
  · cases h

/-- Two tokens tell, but for `extern` with a literal behind it. -/
theorem modifier?_pair {t u : Lexeme} {rest rest' : List Lexeme}
    (h : t.text = "extern".toList → u.kind = .literal → rest.head? = rest'.head?) :
    modifier? (t :: u :: rest) = modifier? (t :: u :: rest') := by
  have hinterface : isInterface (t :: u :: rest) = isInterface (t :: u :: rest') := by
    by_cases hboth : t.text = "extern".toList ∧ u.kind = .literal
    · have hhead := h hboth.1 hboth.2
      unfold isInterface isWordAt kindAt
      rw [List.tail_cons, List.tail_cons, List.tail_cons, List.tail_cons, hhead]
      rfl
    · have hnot : ∀ more, isInterface (t :: u :: more) = false := by
        intro more
        rw [Bool.eq_false_iff]
        intro htrue
        simp only [isInterface, Bool.and_eq_true, decide_eq_true_eq] at htrue
        exact hboth ⟨htrue.1.1.1, Option.some.inj htrue.1.1.2⟩
      rw [hnot, hnot]
  unfold modifier?
  rw [hinterface]
  rfl

/-- A modifier that something follows is the same whatever stands behind that. -/
theorem modifier?_stays {a b r : List Lexeme} {m : Modifier} (h : modifier? (a ++ r) = some m)
    (hbehind : m.behind last (a ++ r) = b ++ r) (hb : b ≠ []) (last' : Lexeme) (r' : List Lexeme) :
    modifier? (a ++ r') = some m ∧ m.behind last' (a ++ r') = b ++ r' := by
  have hlength := (m.behind_suffix last (a ++ r)).length_le
  have hpos := List.length_pos_iff.mpr hb
  rw [hbehind, List.length_tail, List.length_append, List.length_append] at hlength
  obtain ⟨t, u, a, rfl⟩ : ∃ t u a', a = t :: u :: a' := by
    match a, hlength with
    | [], hlength =>
      simp only [List.length_nil] at hlength
      omega
    | [t], hlength =>
      simp only [List.length_singleton] at hlength
      omega
    | t :: u :: a, _ => exact ⟨t, u, a, rfl⟩
  constructor
  · rw [← h]
    refine modifier?_pair fun ht hu => ?_
    obtain rfl := modifier?_extern h ht hu
    have hrest : a = b := List.append_cancel_right hbehind
    rw [hrest]
    obtain ⟨v, b, rfl⟩ := List.exists_cons_of_ne_nil hb
    rfl
  · cases m with
    | word =>
      have hrest : u :: a = b := List.append_cancel_right hbehind
      rw [← hrest]
      rfl
    | literal =>
      have hrest : a = b := List.append_cancel_right hbehind
      rw [← hrest]
      rfl
    | group => exact skipGroup_stays (a := u :: a) hbehind hb last' r'

/-- A word that is no modifier is not taken for one. -/
theorem modifier?_of_text {ts : List Lexeme}
    (h : ∀ s ∈ ["pub", "const", "extern", "async", "unsafe", "default", "auto", "safe"],
      textAt ts ≠ s.toList) : modifier? ts = none := by
  have hqualifier : ["async", "unsafe", "default", "auto", "safe"].any
      (fun s => decide (s.toList = textAt ts)) = false := by
    rw [List.any_eq_false]
    intro s hs heq
    exact h s (List.mem_append_right ["pub", "const", "extern"] hs) (of_decide_eq_true heq).symm
  simp only [modifier?, isInterface, h "pub" (by simp), h "const" (by simp), h "extern" (by simp),
    hqualifier, if_false, decide_false, Bool.false_and, Bool.false_eq_true]

/-- There is no modifier at the front of these tokens, whatever stands behind them. -/
def Settled (b : List Lexeme) : Prop := ∀ r, modifier? (b ++ r) = none

/-- **The place of a keyword** does not depend on what stands behind it. -/
theorem keywordPlace_stays {a b r : List Lexeme} (h : keywordPlace last (a ++ r) = b ++ r)
    (hb : b ≠ []) (hsettled : Settled b) (last' : Lexeme) (r' : List Lexeme) :
    keywordPlace last' (a ++ r') = b ++ r' := by
  induction hn : a.length using Nat.strongRecOn generalizing a with
  | _ n ih =>
    rw [keywordPlace_eq] at h ⊢
    cases hmodifier : modifier? (a ++ r) with
    | none =>
      rw [hmodifier] at h
      have hab : a = b := List.append_cancel_right h
      rw [hab, hsettled r']
    | some m =>
      rw [hmodifier] at h
      -- the keyword stands behind the modifier
      obtain ⟨x, hx⟩ := keywordPlace_suffix last (m.behind last (a ++ r))
      have hplace : keywordPlace last (m.behind last (a ++ r)) = b ++ r := h
      rw [hplace, ← List.append_assoc] at hx
      have hne : x ++ b ≠ [] := List.append_ne_nil_of_right_ne_nil x hb
      have hlt := m.length_behind_lt last hmodifier
      rw [← hx, List.length_append, List.length_append] at hlt
      rw [List.length_append] at hlt
      obtain ⟨hsame, hbehind⟩ := modifier?_stays hmodifier hx.symm hne last' r'
      rw [hsame]
      dsimp only
      rw [hbehind]
      rw [← hx] at hplace
      exact ih (x ++ b).length (by rw [List.length_append]; omega) hplace rfl

end Modifiers

end LiveDoc.Item
