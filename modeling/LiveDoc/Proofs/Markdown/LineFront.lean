import LiveDoc.Proofs.Markdown.Outline

/-!
# The front of a line

Containers take off the front of a line what they ask for, and do not look at what stands behind it.

* A container goes on with a line by what stands in front of its first glyph that is neither a space
  nor an angle bracket (`Outline.continued_append`).
* The containers in front of a fence start by what stands in front of its marker
  (`Outline.opened_front`).
-/

namespace LiveDoc.Markdown

/-- A line starts with something that no open container takes off. -/
def Solid (gs : List Glyph) : Prop := ∃ g rest, gs = g :: rest ∧ g.isSpace = false ∧ g.char ≠ '>'

/-- Whether a glyph can be the first one of a fence. -/
def Glyph.isTick (g : Glyph) : Bool := g.char = '`' || g.char = '~'

variable {H M gs rest : List Glyph} {g : Glyph}

theorem Glyph.isTick_iff : g.isTick = true ↔ g.char = '`' ∨ g.char = '~' := by
  simp [isTick]

theorem Glyph.isSpace_of_isTick (h : g.isTick = true) : g.isSpace = false := by
  rcases isTick_iff.mp h with h | h <;> simp [isSpace, h]

theorem solid_of_isTick (h : g.isTick = true) (ms : List Glyph) : Solid (g :: ms) := by
  refine ⟨g, ms, rfl, Glyph.isSpace_of_isTick h, ?_⟩
  rcases Glyph.isTick_iff.mp h with h | h <;> simp [h]

theorem Solid.not_blank (h : Solid M) (H : List Glyph) : (H ++ M).all Glyph.isSpace = false := by
  obtain ⟨g, rest, rfl, hg, -⟩ := h
  simp [hg]

/-! ## What containers take off -/

namespace Glyph

theorem cutSpaces_append_self (n : Nat) (gs : List Glyph) :
    (cutSpaces n gs).1 ++ (cutSpaces n gs).2 = gs := by
  induction n generalizing gs with
  | zero => rfl
  | succ n ih =>
    cases gs with
    | nil => rfl
    | cons g rest =>
      rw [cutSpaces]
      split
      · exact congrArg (g :: ·) (ih rest)
      · rfl

theorem isSpace_of_mem_cutSpaces {n : Nat} (h : g ∈ (cutSpaces n gs).1) : g.isSpace = true := by
  induction n generalizing gs with
  | zero => cases h
  | succ n ih =>
    cases gs with
    | nil => cases h
    | cons f rest =>
      rw [cutSpaces] at h
      split at h
      · next hf =>
        rcases List.mem_cons.mp h with rfl | h
        · exact hf
        · exact ih h
      · cases h

theorem cutSpaces_suffix (n : Nat) (gs : List Glyph) : (cutSpaces n gs).2 <:+ gs :=
  ⟨(cutSpaces n gs).1, cutSpaces_append_self n gs⟩

/-- Spaces are cut in front of what is none. -/
theorem cutSpaces_append (hM : Solid M) (n : Nat) (H : List Glyph) :
    cutSpaces n (H ++ M) = ((cutSpaces n H).1, (cutSpaces n H).2 ++ M) := by
  obtain ⟨g, ms, rfl, hg, -⟩ := hM
  induction n generalizing H with
  | zero => rfl
  | succ n ih =>
    cases H with
    | nil => simp [cutSpaces, hg]
    | cons f rest =>
      rw [List.cons_append, cutSpaces, cutSpaces, ih rest]
      split <;> rfl

end Glyph

namespace Container

theorem takeQuote?_append (hM : Solid M) (H : List Glyph) :
    takeQuote? (H ++ M) = (takeQuote? H).map (· ++ M) := by
  rw [takeQuote?, takeQuote?, Glyph.cutSpaces_append hM]
  dsimp only
  cases (Glyph.cutSpaces indentMax H).2 with
  | nil =>
    obtain ⟨g, ms, rfl, -, hquote⟩ := hM
    exact if_neg hquote
  | cons f rest =>
    rw [List.cons_append]
    dsimp only
    split
    · rw [Glyph.cutSpaces_append hM]
      rfl
    · rfl

theorem takeIndent?_append (hM : Solid M) (width : Nat) (H : List Glyph) :
    takeIndent? width (H ++ M) = (takeIndent? width H).map (· ++ M) := by
  rw [takeIndent?, takeIndent?, Glyph.cutSpaces_append hM]
  dsimp only
  split <;> rfl

/-- An item that lines go on with which hold something. -/
def settle : Container → Container
  | item marker width _ => item marker width false
  | c => c

/-- What a container takes off the front of a line that holds something behind it. -/
def takeFront? : Container → List Glyph → Option (List Glyph)
  | quote, H => takeQuote? H
  | item _ width _, H => takeIndent? width H
  | footnote _, H => takeIndent? Glyph.tabWidth H

/-- A container goes on with a line by its front. -/
theorem continue?_append (hM : Solid M) (c : Container) (H : List Glyph) :
    c.continue? (H ++ M) = (c.takeFront? H).map fun front => (c.settle, front ++ M) := by
  have hblank := hM.not_blank H
  cases c with
  | quote =>
    rw [continue?, takeQuote?_append hM, Option.map_map]
    rfl
  | item marker width bare =>
    simp only [continue?, hblank, takeIndent?_append hM, Option.map_map]
    rfl
  | footnote label =>
    simp only [continue?, hblank, takeIndent?_append hM, Option.map_map]
    rfl

/-- What a container takes off a line are spaces and angle brackets. -/
theorem exists_front_of_continue? {c c' : Container} (h : c.continue? gs = some (c', rest)) :
    ∃ front, gs = front ++ rest ∧ ∀ g ∈ front, g.isSpace = true ∨ g.char = '>' := by
  have hcut : ∀ n, ∃ front, gs = front ++ (Glyph.cutSpaces n gs).2 ∧
      ∀ g ∈ front, g.isSpace = true ∨ g.char = '>' := fun n =>
    ⟨_, (Glyph.cutSpaces_append_self n gs).symm,
      fun _ hg => Or.inl (Glyph.isSpace_of_mem_cutSpaces hg)⟩
  have hindent : ∀ width rest, takeIndent? width gs = some rest →
      rest = (Glyph.cutSpaces width gs).2 := by
    intro width rest h
    unfold takeIndent? at h
    dsimp only at h
    split at h
    · exact (Option.some.inj h).symm
    · cases h
  cases c with
  | quote =>
    obtain ⟨_, htake, hr⟩ := Option.map_eq_some_iff.mp h
    obtain rfl := (Prod.mk.inj hr).2
    obtain ⟨front, hfront, hall⟩ := hcut indentMax
    unfold takeQuote? at htake
    generalize (Glyph.cutSpaces indentMax gs).2 = cut at hfront htake
    cases cut with
    | nil => cases htake
    | cons q more =>
      dsimp only at htake
      split at htake
      · next hq =>
        obtain rfl := Option.some.inj htake
        refine ⟨front ++ q :: (Glyph.cutSpaces 1 more).1, ?_, ?_⟩
        · rw [hfront, List.append_assoc, List.cons_append, Glyph.cutSpaces_append_self]
        · intro g hg
          rcases List.mem_append.mp hg with hg | hg
          · exact hall g hg
          · rcases List.mem_cons.mp hg with rfl | hg
            · exact Or.inr hq
            · exact Or.inl (Glyph.isSpace_of_mem_cutSpaces hg)
      · cases htake
  | item marker width bare =>
    unfold continue? at h
    dsimp only at h
    split at h
    · split at h
      · cases h
      · rw [← (Prod.mk.inj (Option.some.inj h)).2]
        exact hcut width
    · obtain ⟨_, htake, hr⟩ := Option.map_eq_some_iff.mp h
      rw [← (Prod.mk.inj hr).2, hindent _ _ htake]
      exact hcut width
  | footnote label =>
    unfold continue? at h
    dsimp only at h
    split at h
    · rw [← (Prod.mk.inj (Option.some.inj h)).2]
      exact hcut Glyph.tabWidth
    · obtain ⟨_, htake, hr⟩ := Option.map_eq_some_iff.mp h
      rw [← (Prod.mk.inj hr).2, hindent _ _ htake]
      exact hcut Glyph.tabWidth

end Container

namespace Outline

/-- What containers take off the front of a line that holds something behind it. -/
def takeFronts : List Container → List Glyph → List Container × List Glyph
  | [], H => ([], H)
  | c :: cs, H =>
    match c.takeFront? H with
    | none => ([], H)
    | some front =>
      let (more, rest) := takeFronts cs front
      (c.settle :: more, rest)

/-- Containers go on with a line by its front. -/
theorem continued_append (hM : Solid M) (cs : List Container) (H : List Glyph) :
    continued cs (H ++ M) = ((takeFronts cs H).1, (takeFronts cs H).2 ++ M) := by
  induction cs generalizing H with
  | nil => rfl
  | cons c rest ih =>
    rw [continued, takeFronts, Container.continue?_append hM]
    cases c.takeFront? H with
    | none => rfl
    | some front =>
      rw [Option.map_some]
      dsimp only
      rw [ih]

/-- What containers take off a line are spaces and angle brackets. -/
theorem exists_front_of_continued (cs : List Container) (gs : List Glyph) :
    ∃ front, gs = front ++ (continued cs gs).2 ∧ ∀ g ∈ front, g.isSpace = true ∨ g.char = '>' := by
  induction cs generalizing gs with
  | nil => exact ⟨[], rfl, fun _ h => absurd h List.not_mem_nil⟩
  | cons c rest ih =>
    rw [continued]
    cases h : c.continue? gs with
    | none => exact ⟨[], rfl, fun _ h => absurd h List.not_mem_nil⟩
    | some result =>
      obtain ⟨c', left⟩ := result
      obtain ⟨front, rfl, hfront⟩ := Container.exists_front_of_continue? h
      obtain ⟨more, hleft, hmore⟩ := ih left
      refine ⟨front ++ more, ?_, ?_⟩
      · rw [List.append_assoc, ← hleft]
      · intro g hg
        rcases List.mem_append.mp hg with hg | hg
        · exact hfront g hg
        · exact hmore g hg

end Outline

/-! ## Containers that a line starts -/

namespace Container

/-- What the start of a container leaves of a line is the end of the line. -/
theorem suffix_of_takeQuote? (h : takeQuote? gs = some rest) :
    rest <:+ gs ∧ rest.length < gs.length := by
  have hsuffix := Glyph.cutSpaces_suffix indentMax gs
  unfold takeQuote? at h
  generalize (Glyph.cutSpaces indentMax gs).2 = cut at hsuffix h
  cases cut with
  | nil => cases h
  | cons q more =>
    dsimp only at h
    split at h
    · obtain rfl := Option.some.inj h
      have hmore := Glyph.cutSpaces_suffix 1 more
      refine ⟨(hmore.trans (List.suffix_cons q more)).trans hsuffix, ?_⟩
      have hle := hmore.length_le
      have hle' := hsuffix.length_le
      rw [List.length_cons] at hle'
      omega
    · cases h

theorem suffix_of_footnoteLabel? {size : Nat} {escaped : Bool} {label : List Glyph}
    (h : footnoteLabel? size escaped gs = some (label, rest)) :
    rest <:+ gs ∧ rest.length < gs.length := by
  induction gs generalizing size escaped label with
  | nil => cases h
  | cons g more ih =>
    have hmore : ∀ (e : Bool) (label : List Glyph),
        (footnoteLabel? (size + g.char.utf8Size) e more).map
          (fun r => (g :: r.1, r.2)) = some (label, rest) →
        rest <:+ g :: more ∧ rest.length < (g :: more).length := by
      intro e label h
      obtain ⟨⟨l, r⟩, hr, heq⟩ := Option.map_eq_some_iff.mp h
      obtain rfl : r = rest := (Prod.mk.inj heq).2
      obtain ⟨hsuffix, hlt⟩ := ih hr
      exact ⟨hsuffix.trans (List.suffix_cons g more), Nat.lt_succ_of_lt hlt⟩
    unfold footnoteLabel? at h
    dsimp only at h
    split at h
    · exact hmore _ _ h
    · split at h
      · cases h
      · split at h
        · split at h
          · cases h
          · rw [← (Prod.mk.inj (Option.some.inj h)).2]
            exact ⟨List.suffix_cons g more, Nat.lt_succ_self _⟩
        · exact hmore _ _ h

/-- A run that is taken by its glyphs does not reach a glyph of another kind. -/
theorem takeWhile_append_cons {p : Glyph → Bool} (hg : p g = false) (K ms : List Glyph) :
    (K ++ g :: ms).takeWhile p = K.takeWhile p := by
  induction K with
  | nil => simp [hg]
  | cons a K ih => rw [List.cons_append, List.takeWhile_cons, List.takeWhile_cons, ih]

theorem dropWhile_append_cons {p : Glyph → Bool} (hg : p g = false) (K ms : List Glyph) :
    (K ++ g :: ms).dropWhile p = K.dropWhile p ++ g :: ms := by
  induction K with
  | nil => simp [hg]
  | cons a K ih =>
    rw [List.cons_append, List.dropWhile_cons, List.dropWhile_cons, ih]
    split <;> rfl

theorem isDigit_of_isTick (hg : g.isTick = true) : g.char.isDigit = false := by
  rcases Glyph.isTick_iff.mp hg with h | h <;> rw [h] <;> rfl

/-- The marker of an item stands in front of the first tick. -/
theorem itemMarker?_front (hg : g.isTick = true) (interrupting : Bool) (K ms ms' : List Glyph) :
    itemMarker? interrupting (K ++ g :: ms) = itemMarker? interrupting (K ++ g :: ms') := by
  have hdigit := isDigit_of_isTick hg
  cases K with
  | nil =>
    rcases Glyph.isTick_iff.mp hg with h | h <;> simp [itemMarker?, h]
  | cons a K =>
    -- a tick stands in no thematic break
    have hbreak : (a.char = '*' || a.char = '-') = true →
        ∀ ms, isThematicBreak (a :: (K ++ g :: ms)) = false := by
      intro ha ms
      have hspace : a.isSpace = false := by
        rcases (by simpa using ha : a.char = '*' ∨ a.char = '-') with h | h <;>
          simp [Glyph.isSpace, h]
      have hne : ¬ g.char = a.char := by
        rcases (by simpa using ha : a.char = '*' ∨ a.char = '-') with h | h <;>
          rcases Glyph.isTick_iff.mp hg with h' | h' <;> simp [h, h']
      simp [isThematicBreak, indentMax, Glyph.cutSpaces, hspace, hne, Glyph.isSpace_of_isTick hg]
    have htake : ∀ ms, (a :: (K ++ g :: ms)).takeWhile (·.char.isDigit) =
        (a :: K).takeWhile (·.char.isDigit) := fun ms => takeWhile_append_cons hdigit (a :: K) ms
    have hdrop : ∀ ms, (a :: (K ++ g :: ms)).dropWhile (·.char.isDigit) =
        (a :: K).dropWhile (·.char.isDigit) ++ g :: ms := fun ms =>
      dropWhile_append_cons hdigit (a :: K) ms
    simp only [List.cons_append, itemMarker?, htake, hdrop]
    split
    · rfl
    · split
      · next ha => simp only [hbreak ha]
      · cases (a :: K).dropWhile (·.char.isDigit) <;> rfl

theorem length_itemMarker? (hg : g.isTick = true) {interrupting : Bool} {K ms : List Glyph}
    {marker : Char} {length : Nat}
    (h : itemMarker? interrupting (K ++ g :: ms) = some (marker, length)) :
    1 ≤ length ∧ length ≤ K.length := by
  have hdigit := isDigit_of_isTick hg
  cases K with
  | nil =>
    rcases Glyph.isTick_iff.mp hg with h' | h' <;> simp [itemMarker?, h'] at h
  | cons a K =>
    have hone : 1 ≤ 1 ∧ 1 ≤ (a :: K).length := ⟨Nat.le_refl 1, Nat.succ_le_succ (Nat.zero_le _)⟩
    have htake : (a :: (K ++ g :: ms)).takeWhile (·.char.isDigit) =
        (a :: K).takeWhile (·.char.isDigit) := takeWhile_append_cons hdigit (a :: K) ms
    have hdrop : (a :: (K ++ g :: ms)).dropWhile (·.char.isDigit) =
        (a :: K).dropWhile (·.char.isDigit) ++ g :: ms := dropWhile_append_cons hdigit (a :: K) ms
    simp only [List.cons_append, itemMarker?, htake, hdrop] at h
    split at h
    · cases h
      exact hone
    · split at h
      · split at h
        · cases h
        · cases h
          exact hone
      · -- digits, and a character behind them that is no tick
        have hparts := List.takeWhile_append_dropWhile (p := (·.char.isDigit)) (l := a :: K)
        generalize (a :: K).takeWhile (·.char.isDigit) = digits at h hparts
        generalize (a :: K).dropWhile (·.char.isDigit) = behind at h hparts
        cases behind with
        | nil =>
          rcases Glyph.isTick_iff.mp hg with h' | h' <;> simp [h'] at h
        | cons e more =>
          rw [List.cons_append] at h
          dsimp only at h
          split at h
          · cases h
            rw [← hparts]
            simp
          · cases h

/-- An item starts by what stands in front of the first tick. -/
theorem openItem?_front (hg : g.isTick = true) (interrupting : Bool) (H : List Glyph) :
    ∃ found : Option (Container × List Glyph), ∀ ms,
      openItem? interrupting (H ++ g :: ms) = found.map fun p => (p.1, p.2 ++ g :: ms) := by
  have hspace := Glyph.isSpace_of_isTick hg
  obtain ⟨indent, hindent⟩ : ∃ n, (Glyph.cutSpaces indentMax H).1.length = n := ⟨_, rfl⟩
  have hle : indent ≤ H.length := by
    rw [← hindent, ← congrArg List.length (Glyph.cutSpaces_append_self indentMax H),
      List.length_append]
    omega
  have hcut : ∀ ms, (Glyph.cutSpaces indentMax (H ++ g :: ms)).1.length = indent := by
    intro ms
    rw [Glyph.cutSpaces_append (solid_of_isTick hg ms), hindent]
  have hdrop : ∀ n, n ≤ H.length → ∀ ms, (H ++ g :: ms).drop n = H.drop n ++ g :: ms :=
    fun n hn ms => List.drop_append_of_le_length hn
  cases hmarker : itemMarker? interrupting (H.drop indent ++ [g]) with
  | none =>
    refine ⟨none, fun ms => ?_⟩
    rw [openItem?]
    dsimp only
    rw [hcut, hdrop indent hle, itemMarker?_front hg interrupting _ ms [], hmarker]
    rfl
  | some found =>
    obtain ⟨marker, length⟩ := found
    obtain ⟨hpos, hlength⟩ := length_itemMarker? hg hmarker
    rw [List.length_drop] at hlength
    obtain ⟨spaces, hspaces⟩ :
        ∃ n, ((H.drop (indent + length)).takeWhile Glyph.isSpace).length = n := ⟨_, rfl⟩
    have hbound : indent + length + spaces ≤ H.length := by
      have htake := (List.takeWhile_prefix (l := H.drop (indent + length)) Glyph.isSpace).length_le
      rw [hspaces, List.length_drop] at htake
      omega
    refine ⟨if spaces = 0 then none else
      let taken := indent + length + if spaces ≤ Glyph.tabWidth then spaces else 1
      some (.item marker (Glyph.size (H.take taken) (H.drop taken ++ [g]).head? + 0) false,
        H.drop taken), fun ms => ?_⟩
    have hrun : ((H ++ g :: ms).drop (indent + length)).takeWhile Glyph.isSpace =
        (H.drop (indent + length)).takeWhile Glyph.isSpace := by
      rw [hdrop _ (by omega)]
      exact takeWhile_append_cons hspace _ ms
    have hall : ((H ++ g :: ms).drop (indent + length)).all Glyph.isSpace = false := by
      rw [hdrop _ (by omega)]
      simp [hspace]
    rw [openItem?]
    dsimp only
    rw [hcut, hdrop indent hle, itemMarker?_front hg interrupting _ ms [], hmarker]
    dsimp only [Option.bind_some]
    rw [hrun, hspaces, hall]
    by_cases hzero : spaces = 0
    · rw [if_pos hzero, if_pos hzero]
      rfl
    · rw [if_neg hzero, if_neg hzero]
      have htaken :
          (indent + length + if spaces ≤ Glyph.tabWidth then spaces else 1) ≤ H.length := by
        split <;> omega
      generalize (indent + length + if spaces ≤ Glyph.tabWidth then spaces else 1) = taken at htaken
      rw [hdrop taken htaken, List.take_append_of_le_length htaken]
      have hhead : (H.drop taken ++ g :: ms).head? = (H.drop taken ++ [g]).head? := by
        cases H.drop taken <;> rfl
      rw [hhead]
      rfl

theorem footnoteLabel?_front {size : Nat} {escaped : Bool} {K K' ms : List Glyph}
    {label : List Glyph}
    (h : footnoteLabel? size escaped (K ++ g :: ms) = some (label, K' ++ g :: ms))
    (ms' : List Glyph) :
    footnoteLabel? size escaped (K ++ g :: ms') = some (label, K' ++ g :: ms') := by
  induction K generalizing size escaped label with
  | nil =>
    have hlt := (suffix_of_footnoteLabel? h).2
    rw [List.length_append] at hlt
    exact absurd hlt (Nat.not_lt.mpr (Nat.le_add_left _ _))
  | cons a K ih =>
    have hmore : ∀ e : Bool, (footnoteLabel? (size + a.char.utf8Size) e (K ++ g :: ms)).map
          (fun r => (a :: r.1, r.2)) = some (label, K' ++ g :: ms) →
        (footnoteLabel? (size + a.char.utf8Size) e (K ++ g :: ms')).map
          (fun r => (a :: r.1, r.2)) = some (label, K' ++ g :: ms') := by
      intro e h
      obtain ⟨⟨l, r⟩, hr, heq⟩ := Option.map_eq_some_iff.mp h
      obtain ⟨rfl, rfl⟩ : a :: l = label ∧ r = K' ++ g :: ms := Prod.mk.inj heq
      rw [ih hr]
      rfl
    rw [List.cons_append] at h ⊢
    unfold footnoteLabel? at h ⊢
    dsimp only at h ⊢
    split at h
    · next hescaped =>
      rw [if_pos hescaped]
      exact hmore _ h
    · next hescaped =>
      rw [if_neg hescaped]
      split at h
      · cases h
      · next hstop =>
        rw [if_neg hstop]
        split at h
        · next hclose =>
          rw [if_pos hclose]
          split at h
          · cases h
          · next hsize =>
            rw [if_neg hsize]
            obtain ⟨hlabel, hrest⟩ := Prod.mk.inj (Option.some.inj h)
            rw [← hlabel, List.append_cancel_right hrest]
        · next hclose =>
          rw [if_neg hclose]
          exact hmore _ h

theorem openFootnote?_front (hg : g.isTick = true) {H' ms : List Glyph} {c : Container}
    (h : openFootnote? (H ++ g :: ms) = some (c, H' ++ g :: ms)) (ms' : List Glyph) :
    openFootnote? (H ++ g :: ms') = some (c, H' ++ g :: ms') := by
  have hspace := Glyph.isSpace_of_isTick hg
  rw [openFootnote?, Glyph.cutSpaces_append (solid_of_isTick hg _)] at h ⊢
  dsimp only at h ⊢
  match (Glyph.cutSpaces indentMax H).2, h with
  | [], h =>
    cases ms with
    | nil => cases h
    | cons b more => rcases Glyph.isTick_iff.mp hg with h' | h' <;> simp [h'] at h
  | [a], h => rcases Glyph.isTick_iff.mp hg with h' | h' <;> simp [h'] at h
  | a :: b :: front, h =>
    rw [List.cons_append, List.cons_append] at h ⊢
    dsimp only at h ⊢
    split at h
    · next hopen =>
      rw [if_pos hopen]
      obtain ⟨⟨label, behind⟩, hlabel, hskip⟩ := Option.bind_eq_some_iff.mp h
      obtain ⟨rest, hrest, hpair⟩ := Option.map_eq_some_iff.mp hskip
      obtain ⟨hc, hdrop⟩ := Prod.mk.inj hpair
      cases behind with
      | nil => cases hrest
      | cons k more =>
        rw [Target.skip?] at hrest
        split at hrest
        · next hcolon =>
          obtain rfl := Option.some.inj hrest
          -- the label ends in front of the tick, since what is left still holds it
          obtain ⟨more, rfl⟩ : ∃ K, more = K ++ g :: ms := by
            have hsuffix := List.dropWhile_suffix (l := more) Glyph.isSpace
            rw [show more.dropWhile Glyph.isSpace = H' ++ g :: ms from hdrop] at hsuffix
            obtain ⟨t, ht⟩ := hsuffix
            exact ⟨t ++ H', by rw [List.append_assoc, ht]⟩
          have hlabel' : footnoteLabel? _ _ _ = some (label, (k :: more) ++ g :: ms) := hlabel
          have hfront := footnoteLabel?_front hlabel' ms'
          rw [Glyph.dropSpaces, dropWhile_append_cons hspace] at hdrop
          refine Option.bind_eq_some_iff.mpr ⟨_, hfront, ?_⟩
          rw [List.cons_append, Target.skip?, if_pos hcolon, Option.map_some, Glyph.dropSpaces,
            dropWhile_append_cons hspace, List.append_cancel_right hdrop, hc]
        · cases hrest
    · cases h

/-- A container starts by what stands in front of the first tick. -/
theorem open?_front (hg : g.isTick = true) {interrupting : Bool} {H' ms : List Glyph}
    {c : Container} (h : open? interrupting (H ++ g :: ms) = some (c, H' ++ g :: ms))
    (ms' : List Glyph) :
    open? interrupting (H ++ g :: ms') = some (c, H' ++ g :: ms') := by
  obtain ⟨found, hfound⟩ := openItem?_front hg interrupting H
  rw [open?, takeQuote?_append (solid_of_isTick hg _), hfound] at h ⊢
  revert h
  cases takeQuote? H with
  | some rest =>
    intro h
    obtain ⟨hc, hrest⟩ := Prod.mk.inj (Option.some.inj h)
    rw [← hc, ← List.append_cancel_right hrest]
    rfl
  | none =>
    cases found with
    | some item =>
      intro h
      obtain ⟨hc, hrest⟩ := Prod.mk.inj (Option.some.inj h)
      rw [← hc, ← List.append_cancel_right hrest]
      rfl
    | none => exact fun h => openFootnote?_front hg h ms'

/-- Spaces start no container. -/
theorem open?_spaces (hg : g.isTick = true) (hH : H.all Glyph.isSpace = true) (interrupting : Bool)
    (ms : List Glyph) : open? interrupting (H ++ g :: ms) = none := by
  -- whatever is left of the spaces, what stands first is a space or the tick
  have hfirst : ∀ {K : List Glyph}, K <:+ H → ∃ a more, K ++ g :: ms = a :: more ∧
      (a.isSpace = true ∨ a.isTick = true) := by
    rintro K ⟨t, rfl⟩
    cases K with
    | nil => exact ⟨g, ms, rfl, Or.inr hg⟩
    | cons a more =>
      rw [List.all_append, Bool.and_eq_true, List.all_cons, Bool.and_eq_true] at hH
      exact ⟨a, more ++ g :: ms, rfl, Or.inl hH.2.1⟩
  have hchars : ∀ {a : Glyph}, a.isSpace = true ∨ a.isTick = true →
      a.char = ' ' ∨ a.char = '\t' ∨ a.char = '`' ∨ a.char = '~' := by
    rintro a (ha | ha)
    · rcases (by simpa [Glyph.isSpace] using ha : a.char = ' ' ∨ a.char = '\t') with h | h
      · exact Or.inl h
      · exact Or.inr (Or.inl h)
    · exact Or.inr (Or.inr (Glyph.isTick_iff.mp ha))
  obtain ⟨a, more, hcut, ha⟩ := hfirst (Glyph.cutSpaces_suffix indentMax H)
  have hquote : takeQuote? (H ++ g :: ms) = none := by
    rw [takeQuote?, Glyph.cutSpaces_append (solid_of_isTick hg ms)]
    dsimp only
    rw [hcut]
    rcases hchars ha with h | h | h | h <;> simp [h]
  have hitem : openItem? interrupting (H ++ g :: ms) = none := by
    have hlength : (Glyph.cutSpaces indentMax (H ++ g :: ms)).1.length ≤ H.length := by
      rw [Glyph.cutSpaces_append (solid_of_isTick hg ms),
        ← congrArg List.length (Glyph.cutSpaces_append_self indentMax H), List.length_append]
      exact Nat.le_add_right _ _
    have hmarker : itemMarker? interrupting
        ((H ++ g :: ms).drop (Glyph.cutSpaces indentMax (H ++ g :: ms)).1.length) = none := by
      rw [List.drop_append_of_le_length hlength]
      obtain ⟨b, behind, hdrop, hb⟩ := hfirst (List.drop_suffix
        (Glyph.cutSpaces indentMax (H ++ g :: ms)).1.length H)
      rw [hdrop]
      rcases hchars hb with h | h | h | h <;> simp [itemMarker?, h]
    rw [openItem?]
    dsimp only
    rw [hmarker]
    rfl
  have hfootnote : openFootnote? (H ++ g :: ms) = none := by
    rw [openFootnote?, Glyph.cutSpaces_append (solid_of_isTick hg ms)]
    dsimp only
    rw [hcut]
    cases more with
    | nil => rfl
    | cons b behind => rcases hchars ha with h | h | h | h <;> simp [h]
  rw [open?, hquote, hitem, hfootnote]
  rfl

theorem length_pos_of_itemMarker? {interrupting : Bool} {marker : Char} {length : Nat}
    (h : itemMarker? interrupting gs = some (marker, length)) : 1 ≤ length ∧ gs ≠ [] := by
  cases gs with
  | nil => cases h
  | cons a more =>
    refine ⟨?_, List.cons_ne_nil a more⟩
    unfold itemMarker? at h
    dsimp only at h
    split at h
    · cases h
      exact Nat.le_refl 1
    · split at h
      · split at h
        · cases h
        · cases h
          exact Nat.le_refl 1
      · split at h
        · split at h
          · cases h
            exact Nat.le_add_left 1 _
          · cases h
        · cases h

theorem suffix_of_openItem? {interrupting : Bool} {c : Container}
    (h : openItem? interrupting gs = some (c, rest)) : rest <:+ gs ∧ rest.length < gs.length := by
  unfold openItem? at h
  obtain ⟨⟨marker, length⟩, hmarker, h⟩ := Option.bind_eq_some_iff.mp h
  obtain ⟨hpos, hne⟩ := length_pos_of_itemMarker? hmarker
  have hdrop : ∀ taken, 1 ≤ taken → gs.drop taken <:+ gs ∧ (gs.drop taken).length < gs.length := by
    intro taken htaken
    have hgs : 0 < gs.length := by
      rw [List.length_pos_iff]
      rintro rfl
      exact hne List.drop_nil
    rw [List.length_drop]
    exact ⟨List.drop_suffix taken gs, by omega⟩
  dsimp only at h
  split at h
  · split at h
    · cases h
    · cases h
      exact hdrop _ (by omega)
  · split at h
    · cases h
    · cases h
      exact hdrop _ (by omega)

theorem suffix_of_openFootnote? {c : Container} (h : openFootnote? gs = some (c, rest)) :
    rest <:+ gs ∧ rest.length < gs.length := by
  have hsuffix := Glyph.cutSpaces_suffix indentMax gs
  unfold openFootnote? at h
  generalize (Glyph.cutSpaces indentMax gs).2 = cut at hsuffix h
  match cut, h with
  | a :: b :: front, h =>
    dsimp only at h
    split at h
    · obtain ⟨⟨label, behind⟩, hlabel, hskip⟩ := Option.bind_eq_some_iff.mp h
      obtain ⟨more, hmore, hpair⟩ := Option.map_eq_some_iff.mp hskip
      obtain ⟨hbehind, hlt⟩ := suffix_of_footnoteLabel? hlabel
      rw [← (Prod.mk.inj hpair).2]
      have hskipped : more <:+ behind := by
        cases behind with
        | nil => cases hmore
        | cons k after =>
          rw [Target.skip?] at hmore
          split at hmore
          · rw [← Option.some.inj hmore]
            exact List.suffix_cons k after
          · cases hmore
      have hall : Glyph.dropSpaces more <:+ front :=
        ((List.dropWhile_suffix _).trans hskipped).trans hbehind
      refine ⟨(hall.trans ⟨[a, b], rfl⟩).trans hsuffix, ?_⟩
      have hle := hall.length_le
      have hle' := hsuffix.length_le
      simp only [List.length_cons] at hle'
      omega
    · cases h
  | [], h => cases h
  | [a], h => cases h

/-- What the start of a container leaves of a line is the end of the line. -/
theorem suffix_of_open? {interrupting : Bool} {c : Container}
    (h : open? interrupting gs = some (c, rest)) : rest <:+ gs ∧ rest.length < gs.length := by
  unfold open? at h
  rcases Option.or_eq_some_iff.mp h with h | ⟨-, h⟩
  · obtain ⟨r, hr, heq⟩ := Option.map_eq_some_iff.mp h
    rw [← (Prod.mk.inj heq).2]
    exact suffix_of_takeQuote? hr
  rcases Option.or_eq_some_iff.mp h with h | ⟨-, h⟩
  · exact suffix_of_openItem? h
  · exact suffix_of_openFootnote? h

end Container

namespace Outline

theorem suffix_of_opened (fuel : Nat) (interrupting : Bool) (cs : List Container)
    (gs : List Glyph) :
    (opened fuel interrupting cs gs).2 <:+ gs := by
  induction fuel generalizing interrupting cs gs with
  | zero => exact List.suffix_rfl
  | succ fuel ih =>
    rw [opened]
    cases h : Container.open? interrupting gs with
    | none => exact List.suffix_rfl
    | some result =>
      obtain ⟨c, rest⟩ := result
      exact (ih false (c :: cs) rest).trans (Container.suffix_of_open? h).1

/-- The containers in front of a fence start by what stands in front of its marker. -/
theorem opened_front (hg : g.isTick = true) {ms W : List Glyph} (hW : W.all Glyph.isSpace = true)
    {fuel fuel' : Nat} {interrupting : Bool} {cs cs' : List Container} (hfuel : H.length < fuel)
    (hfuel' : H.length < fuel')
    (h : opened fuel interrupting cs (H ++ g :: ms) = (cs', W ++ g :: ms)) (ms' : List Glyph) :
    opened fuel' interrupting cs (H ++ g :: ms') = (cs', W ++ g :: ms') := by
  induction fuel generalizing fuel' interrupting cs H with
  | zero => exact absurd hfuel (Nat.not_lt_zero _)
  | succ fuel ih =>
    obtain ⟨fuel', rfl⟩ := Nat.exists_eq_succ_of_ne_zero (Nat.ne_of_gt (Nat.zero_lt_of_lt hfuel'))
    rw [opened] at h ⊢
    cases hopen : Container.open? interrupting (H ++ g :: ms) with
    | none =>
      rw [hopen] at h
      obtain ⟨rfl, hH⟩ := Prod.mk.inj h
      obtain rfl := List.append_cancel_right hH
      rw [Container.open?_spaces hg hW]
    | some result =>
      obtain ⟨c, rest⟩ := result
      rw [hopen] at h
      dsimp only at h
      obtain ⟨hsuffix, hlt⟩ := Container.suffix_of_open? hopen
      -- the marker is still there, so only what stands in front of it was taken
      obtain ⟨front, rfl⟩ : ∃ front, rest = front ++ g :: ms := by
        have hleft := suffix_of_opened fuel false (c :: cs) rest
        rw [h] at hleft
        obtain ⟨t, ht⟩ := hleft
        exact ⟨t ++ W, by rw [List.append_assoc, ht]⟩
      rw [Container.open?_front hg hopen ms']
      simp only [List.length_append, List.length_cons] at hlt
      exact ih (by omega) (by omega) h

end Outline

end LiveDoc.Markdown
