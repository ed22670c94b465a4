import LiveDoc.Proofs.Item.OneItem

/-!
# The walk over a file

The scanner walks over the tokens of a file, one step after the other, and each step goes forward.
What it finds cuts the tokens into segments: `Segmented` says that every item has tokens of its own,
in order, which hold this item also when they are scanned alone.

* `step`, `Walks` — one step, and all of them;
* `Waits` — attributes and doc comments that wait for an item do so whatever it is;
* `segmented_walk` — the induction over the walk.
-/

namespace LiveDoc.Item

variable {last : Lexeme}

/-! ## Steps -/

/-- Where a step of the walk leads. -/
structure Step where
  item : Option Item
  pending : Option Nat
  place : List Lexeme

/-- The place behind the mark of an attribute with its group, from the place behind the mark. -/
def behindAttribute (last : Lexeme) (rest : List Lexeme) : List Lexeme :=
  let opening := if kindAt rest = some .bang then rest.tail else rest
  if kindAt opening = some .open then skipGroup last opening else opening

/-- One step of the walk, from a token. -/
def step (last : Lexeme) (pending : Option Nat) (t : Lexeme) (rest : List Lexeme) : Step :=
  match t.kind with
  | .outerDoc => ⟨none, pending.or (some t.span.start), rest⟩
  | .pound =>
    ⟨none, if kindAt rest = some .bang then pending else pending.or (some t.span.start),
      behindAttribute last rest⟩
  | .word =>
    let found := scanItem last (pending.getD t.span.start) (t :: rest)
    ⟨found.1, none, found.2⟩
  | _ => ⟨none, none, rest⟩

section Kinds

variable {t : Lexeme} (pending : Option Nat) (rest : List Lexeme)

theorem step_of_outerDoc (h : t.kind = .outerDoc) :
    step last pending t rest = ⟨none, pending.or (some t.span.start), rest⟩ := by
  simp only [step, h]

theorem step_of_pound (h : t.kind = .pound) : step last pending t rest =
    ⟨none, if kindAt rest = some .bang then pending else pending.or (some t.span.start),
      behindAttribute last rest⟩ := by
  simp only [step, h]

/-- Doc comments and attributes are no items. -/
theorem item_of_attribute (h : t.kind = .outerDoc ∨ t.kind = .pound) :
    (step last pending t rest).item = none := by
  rcases h with hdoc | hpound
  · rw [step_of_outerDoc _ _ hdoc]
  · rw [step_of_pound _ _ hpound]

theorem step_of_word (h : t.kind = .word) : step last pending t rest =
    ⟨(scanItem last (pending.getD t.span.start) (t :: rest)).1, none,
      (scanItem last (pending.getD t.span.start) (t :: rest)).2⟩ := by
  simp only [step, h]

theorem step_of_other (hdoc : t.kind ≠ .outerDoc) (hpound : t.kind ≠ .pound)
    (hword : t.kind ≠ .word) : step last pending t rest = ⟨none, none, rest⟩ := by
  rw [step]
  split
  · next hkind => exact absurd hkind hdoc
  · next hkind => exact absurd hkind hpound
  · next hkind => exact absurd hkind hword
  · rfl

theorem scanFrom_cons (fuel : Nat) : scanFrom last (fuel + 1) pending (t :: rest) =
    (step last pending t rest).item.toList ++
      scanFrom last fuel (step last pending t rest).pending (step last pending t rest).place := by
  rw [scanFrom]
  split
  · next hkind =>
    rw [step_of_outerDoc pending rest hkind]
    rfl
  · next hkind =>
    rw [step_of_pound pending rest hkind]
    simp only [behindAttribute, Option.toList_none, List.nil_append]
  · next hkind =>
    rw [step_of_word pending rest hkind]
    dsimp only
    cases (scanItem last (pending.getD t.span.start) (t :: rest)).1 <;> rfl
  · next hdoc hpound hword =>
    rw [step_of_other pending rest hdoc hpound hword]
    rfl

end Kinds

theorem behindAttribute_suffix (last : Lexeme) (rest : List Lexeme) :
    behindAttribute last rest <:+ rest := by
  have hopening : (if kindAt rest = some .bang then rest.tail else rest) <:+ rest := by
    split
    · exact List.tail_suffix rest
    · exact List.suffix_refl rest
  unfold behindAttribute
  dsimp only
  generalize (if kindAt rest = some .bang then rest.tail else rest) = opening at hopening ⊢
  split
  · exact (skipGroup_suffix last _).trans ((List.tail_suffix _).trans hopening)
  · exact hopening

/-- **Each step goes forward.** -/
theorem step_suffix (last : Lexeme) (pending : Option Nat) (t : Lexeme) (rest : List Lexeme) :
    (step last pending t rest).place <:+ rest := by
  by_cases hword : t.kind = .word
  · rw [step_of_word pending rest hword]
    exact scanItem_suffix last _ (t :: rest)
  by_cases hpound : t.kind = .pound
  · rw [step_of_pound pending rest hpound]
    exact behindAttribute_suffix last rest
  by_cases hdoc : t.kind = .outerDoc
  · rw [step_of_outerDoc pending rest hdoc]
  · rw [step_of_other pending rest hdoc hpound hword]

/-- A walk to the end of the file: each step leads to a place strictly behind the one before. -/
inductive Walks (last : Lexeme) : (pending : Option Nat) → List Lexeme → List Item → Prop
  | done {pending : Option Nat} : Walks last pending [] []
  | step {pending : Option Nat} {t : Lexeme} {rest : List Lexeme} {items : List Item} :
      (step last pending t rest).place.length < (t :: rest).length →
      Walks last (step last pending t rest).pending (step last pending t rest).place items →
      Walks last pending (t :: rest) ((step last pending t rest).item.toList ++ items)

theorem length_step_lt (last : Lexeme) (pending : Option Nat) (t : Lexeme) (rest : List Lexeme) :
    (step last pending t rest).place.length < (t :: rest).length :=
  Nat.lt_succ_of_le (step_suffix last pending t rest).length_le

/-- **The walk comes to its end.** As many steps as there are tokens are enough. -/
theorem walks_scanFrom {ts : List Lexeme} {fuel : Nat} (h : ts.length ≤ fuel)
    (pending : Option Nat) : Walks last pending ts (scanFrom last fuel pending ts) := by
  induction fuel generalizing ts pending with
  | zero =>
    obtain rfl : ts = [] := List.length_eq_zero_iff.mp (Nat.le_zero.mp h)
    exact .done
  | succ fuel ih =>
    cases ts with
    | nil => exact .done
    | cons t rest =>
      have hlt := length_step_lt last pending t rest
      rw [scanFrom_cons]
      exact .step hlt (ih (by rw [List.length_cons] at h hlt; omega) _)

/-- There is one walk only. -/
theorem Walks.unique {pending : Option Nat} {ts : List Lexeme} {items items' : List Item}
    (h : Walks last pending ts items) (h' : Walks last pending ts items') : items = items' := by
  induction h generalizing items' with
  | done =>
    cases h'
    rfl
  | step _ _ ih =>
    cases h' with
    | step _ hrest => rw [ih hrest]

/-- The items from a place on. -/
def walk (last : Lexeme) (pending : Option Nat) (ts : List Lexeme) : List Item :=
  scanFrom last ts.length pending ts

theorem walk_cons (pending : Option Nat) (t : Lexeme) (rest : List Lexeme) :
    walk last pending (t :: rest) = (step last pending t rest).item.toList ++
      walk last (step last pending t rest).pending (step last pending t rest).place := by
  have hle : (step last pending t rest).place.length ≤ rest.length :=
    (step_suffix last pending t rest).length_le
  rw [walk, List.length_cons, scanFrom_cons]
  congr 1
  exact (walks_scanFrom hle _).unique (walks_scanFrom (Nat.le_refl _) _)

/-! ## Waiting for an item -/

/-- Attributes and doc comments that wait for an item at the token `t`, whatever stands behind
that. -/
def Waits (front : List Lexeme) (t : Lexeme) : Prop :=
  ∀ last rest, walk last none (front ++ t :: rest) =
    walk last (front.head?.map (·.span.start)) (t :: rest)

theorem waits_nil (t : Lexeme) : Waits [] t := fun _ _ => rfl

theorem behindAttribute_stays {mid rest : List Lexeme} {t : Lexeme}
    (h : behindAttribute last (mid ++ t :: rest) = t :: rest) (last' : Lexeme)
    (rest' : List Lexeme) :
    behindAttribute last' (mid ++ t :: rest') = t :: rest' ∧
      kindAt (mid ++ t :: rest') = kindAt (mid ++ t :: rest) := by
  -- a group in front of `t` ends there, whatever stands behind `t`
  have hgroup : ∀ a : List Lexeme,
      (if kindAt (a ++ t :: rest) = some .open then skipGroup last (a ++ t :: rest)
        else a ++ t :: rest) = t :: rest →
      (if kindAt (a ++ t :: rest') = some .open then skipGroup last' (a ++ t :: rest')
        else a ++ t :: rest') = t :: rest' := by
    intro a ha
    have hsame : kindAt (a ++ t :: rest') = kindAt (a ++ t :: rest) := by cases a <;> rfl
    rw [hsame]
    split at ha
    · next hopen =>
      rw [if_pos hopen]
      have hstays := skipGroup_stays (a := a ++ [t]) (b := [t]) (r := rest) (by simpa using ha)
        (List.cons_ne_nil t []) last' rest'
      simpa using hstays
    · next hopen =>
      rw [if_neg hopen]
      have hnil : a = [] := List.append_cancel_right (ha.trans (List.nil_append (t :: rest)).symm)
      rw [hnil, List.nil_append]
  have hsame : kindAt (mid ++ t :: rest') = kindAt (mid ++ t :: rest) := by cases mid <;> rfl
  refine ⟨?_, hsame⟩
  unfold behindAttribute at h ⊢
  dsimp only at h ⊢
  rw [hsame]
  split at h
  · next hbang =>
    rw [if_pos hbang]
    cases mid with
    | nil =>
      -- behind `t` is no place at `t`
      have hle : (t :: rest).length ≤ rest.length := by
        rw [← h]
        split
        · exact ((skipGroup_suffix last _).trans (List.tail_suffix _)).length_le
        · exact Nat.le_refl _
      exact absurd hle (Nat.not_succ_le_self _)
    | cons m mid => exact hgroup mid h
  · next hbang =>
    rw [if_neg hbang]
    exact hgroup mid h

/-- What waits after a step over an attribute or a doc comment: all that waited before and the
attribute itself, or nothing, where an inner attribute stands in front of everything else. -/
theorem Waits.attribute {front mid rest : List Lexeme} {t t' : Lexeme} (h : Waits front t)
    (hkind : t.kind = .outerDoc ∨ t.kind = .pound) (pending' : Option Nat)
    (hstep : step last (front.head?.map (·.span.start)) t (mid ++ t' :: rest) =
      ⟨none, pending', t' :: rest⟩) :
    pending' = none ∨ (pending' = (front ++ t :: mid).head?.map (·.span.start) ∧
      Waits (front ++ t :: mid) t') := by
  -- the step is the same whatever stands behind `t'`
  have hsame : ∀ last' rest', step last' (front.head?.map (·.span.start)) t (mid ++ t' :: rest') =
      ⟨none, pending', t' :: rest'⟩ := by
    intro last' rest'
    rcases hkind with hdoc | hpound
    · rw [step_of_outerDoc _ _ hdoc] at hstep ⊢
      obtain ⟨-, hpending, hplace⟩ := Step.mk.inj hstep
      obtain rfl : mid = [] := List.append_cancel_right (hplace.trans (List.nil_append _).symm)
      rw [hpending]
      rfl
    · rw [step_of_pound _ _ hpound] at hstep ⊢
      obtain ⟨-, hpending, hplace⟩ := Step.mk.inj hstep
      obtain ⟨hbehind, hnext⟩ := behindAttribute_stays hplace last' rest'
      rw [hbehind, hnext, hpending]
  have hwaits : ∀ last' rest', walk last' none (front ++ t :: mid ++ t' :: rest') =
      walk last' pending' (t' :: rest') := by
    intro last' rest'
    rw [List.append_assoc, List.cons_append, h last', walk_cons, hsame]
    rfl
  have hpending : pending' = none ∨ pending' = (front ++ t :: mid).head?.map (·.span.start) := by
    rcases hkind with hdoc | hpound
    · rw [step_of_outerDoc _ _ hdoc] at hstep
      obtain ⟨-, hpending, -⟩ := Step.mk.inj hstep
      rw [← hpending]
      cases front <;> exact .inr rfl
    · rw [step_of_pound _ _ hpound] at hstep
      obtain ⟨-, hpending, -⟩ := Step.mk.inj hstep
      rw [← hpending]
      cases front with
      | nil =>
        split
        · exact .inl rfl
        · exact .inr rfl
      | cons f front =>
        split <;> exact .inr rfl
  refine hpending.imp id fun hstart => ⟨hstart, fun last' rest' => ?_⟩
  rw [hwaits, hstart]

/-! ## Segments -/

/-- The tokens of an item: those that waited for it, and those from its first word on. Scanned
alone, they hold this item and nothing else. -/
structure Owns (own : List Lexeme) (item : Item) : Prop where
  alone : scanLexemes own = [item]
  spans : ∃ first last, own.head? = some first ∧ own.getLast? = some last ∧
    Spans first.span.start own last item
  read : ∃ front t mid last, own = front ++ t :: mid ∧ own.getLast? = some last ∧ Waits front t ∧
    t.kind = .word ∧
    scanItem last ((front.head?.map (·.span.start)).getD t.span.start) (t :: mid) = (some item, [])

/-- Tokens that fall into those of the items, in order, and those between them. -/
inductive Segmented : List Lexeme → List Item → Prop
  | done {ts : List Lexeme} : Segmented ts []
  | item {gap own rest : List Lexeme} {i : Item} {items : List Item} : Owns own i →
      Segmented rest items → Segmented (gap ++ (own ++ rest)) (i :: items)

theorem Segmented.behind {ts : List Lexeme} {items : List Item} (h : Segmented ts items)
    (gap : List Lexeme) : Segmented (gap ++ ts) items := by
  cases h with
  | done => exact .done
  | item howns hrest =>
    rw [← List.append_assoc]
    exact .item howns hrest

/-- Each item has tokens of its own. -/
theorem Segmented.exists_own {ts : List Lexeme} {items : List Item} {i : Item}
    (h : Segmented ts items) (hi : i ∈ items) : ∃ front own back, ts = front ++ (own ++ back) ∧
    Owns own i := by
  induction h with
  | done => cases hi
  | @item gap own rest _ _ howns _ ih =>
    rcases List.mem_cons.mp hi with rfl | hi
    · exact ⟨gap, own, rest, rfl, howns⟩
    · obtain ⟨front, own', back, rfl, howns'⟩ := ih hi
      exact ⟨gap ++ (own ++ front), own', back, by simp, howns'⟩

theorem scanLexemes_eq_walk {own : List Lexeme} (hlast : own.getLast? = some last) :
    scanLexemes own = walk last none own := by
  rw [scanLexemes, hlast]
  rfl

/-- An item that is read in the walk has its tokens: those that waited for it, and those from its
first word on. -/
theorem owns_of_scanItem {front mid rest : List Lexeme} {t : Lexeme} {item : Item}
    (hwaits : Waits front t) (hbraces : BracesOpen (front ++ t :: mid))
    (hlast : (front ++ t :: mid ++ rest).getLast? = some last) (hword : t.kind = .word)
    (h : scanItem last ((front.head?.map (·.span.start)).getD t.span.start) (t :: mid ++ rest) =
      (some item, rest)) : Owns (front ++ t :: mid) item := by
  obtain ⟨last', hlast'⟩ : ∃ z, (t :: mid).getLast? = some z :=
    ⟨(t :: mid).getLast (List.cons_ne_nil t mid), List.getLast?_eq_some_getLast _⟩
  have hown : (front ++ t :: mid).getLast? = some last' := by
    rw [List.getLast?_append, hlast']
    rfl
  have hwords : BracesOpen (t :: mid) := fun s hs => hbraces s (List.mem_append_right front hs)
  have halone : scanItem last' ((front.head?.map (·.span.start)).getD t.span.start) (t :: mid) =
      (some item, []) := by
    cases rest with
    | nil =>
      rw [List.append_nil] at hlast h
      obtain rfl : last' = last := Option.some.inj (hown.symm.trans hlast)
      exact h
    | cons r rest =>
      have hstays := scanItem_stays hwords h (List.cons_ne_nil r rest) last' []
      rwa [List.append_nil] at hstays
  obtain ⟨hspan, hbody⟩ := scanItem_spans hwords (congrArg some hword) hlast' halone
  refine ⟨?_, ⟨(front ++ t :: mid).head (by simp), last', List.head?_eq_some_head _, hown, ?_, ?_⟩,
    front, t, mid, last', rfl, hown, hwaits, hword, halone⟩
  · rw [scanLexemes_eq_walk hown, hwaits, walk_cons, step_of_word _ _ hword, halone]
    rfl
  · rw [hspan]
    cases front <;> rfl
  · refine hbody.imp id ?_
    rintro ⟨header, o, inner, hsplit, hheader, hopen, hspans⟩
    refine ⟨front ++ header, o, inner, ?_, ?_, hopen, hspans⟩
    · rw [hsplit, List.append_assoc]
    · exact List.append_ne_nil_of_right_ne_nil front hheader

/-- **The walk cuts the tokens into those of the items.** -/
theorem segmented_walk {front ts : List Lexeme} (hwaits : ∀ t ∈ ts.head?, Waits front t)
    (hbraces : BracesOpen (front ++ ts)) (hlast : ts ≠ [] → (front ++ ts).getLast? = some last) :
    Segmented (front ++ ts) (walk last (front.head?.map (·.span.start)) ts) := by
  induction hn : ts.length using Nat.strongRecOn generalizing front ts with
  | _ n ih =>
    cases ts with
    | nil => exact .done
    | cons t rest =>
      have hfirst := hwaits t rfl
      have hlast := hlast (List.cons_ne_nil t rest)
      have hforward := step_suffix last (front.head?.map (·.span.start)) t rest
      rw [walk_cons]
      generalize hstep : step last (front.head?.map (·.span.start)) t rest = s at hforward ⊢
      obtain ⟨item, pending', place⟩ := s
      obtain ⟨mid, hmid⟩ := hforward
      dsimp only at hmid ⊢
      subst hmid
      have hsplit : front ++ t :: (mid ++ place) = front ++ t :: mid ++ place := by simp
      rw [hsplit] at hbraces hlast ⊢
      have hshorter : place.length < n := by
        rw [← hn, List.length_cons, List.length_append]
        omega
      have hlastPlace : place ≠ [] → ([] ++ place).getLast? = some last := by
        intro hplace
        rw [List.getLast?_append_of_ne_nil _ hplace] at hlast
        exact hlast
      have hbracesPlace : BracesOpen ([] ++ place) :=
        fun u hu => hbraces u (List.mem_append_right _ hu)
      -- a walk on which nothing waits
      have hafresh : Segmented place (walk last none place) :=
        ih place.length hshorter (fun u _ => waits_nil u) hbracesPlace hlastPlace rfl
      by_cases hword : t.kind = .word
      · rw [step_of_word _ _ hword] at hstep
        obtain ⟨hitem, rfl, hplace⟩ := Step.mk.inj hstep
        cases item with
        | none => exact hafresh.behind (front ++ t :: mid)
        | some item =>
          have hfound : scanItem last ((front.head?.map (·.span.start)).getD t.span.start)
              (t :: mid ++ place) = (some item, place) := Prod.ext hitem hplace
          have howns := owns_of_scanItem hfirst
            (fun u hu => hbraces u (List.mem_append_left place hu)) hlast hword hfound
          have hsegments : Segmented ([] ++ (front ++ t :: mid ++ place)) _ := .item howns hafresh
          exact hsegments
      by_cases hattribute : t.kind = .outerDoc ∨ t.kind = .pound
      · obtain rfl : none = item := by
          rw [← item_of_attribute _ _ hattribute, hstep]
        cases place with
        | nil => exact .done
        | cons t' rest =>
          rcases hfirst.attribute hattribute pending' hstep with rfl | ⟨rfl, hwaits'⟩
          · exact hafresh.behind (front ++ t :: mid)
          · refine ih _ hshorter (fun u hu => ?_) hbraces (fun hplace => hlast) rfl
            obtain rfl := Option.some.inj hu
            exact hwaits'
      · rw [not_or] at hattribute
        rw [step_of_other _ _ hattribute.1 hattribute.2 hword] at hstep
        obtain ⟨rfl, rfl, hplace⟩ := Step.mk.inj hstep
        exact hafresh.behind (front ++ t :: mid)

end LiveDoc.Item
