import LiveDoc.Proofs.Markdown.LineFront
import LiveDoc.Proofs.Markdown.OutlineShift
import LiveDoc.Proofs.Markdown.RawLine

/-!
# The code that a line gives out

A line that is read either goes on with the code that is open, or ends the leaf that is open and
starts something else (`Outline.turns_step`). So the first code that comes out of an outline is the
code that is open in it, and all other code starts on the lines that are still to come
(`Outline.codes_cases`).
-/

namespace LiveDoc.Markdown

/-! ## Leaves of code -/

namespace Leaf

/-- Whether fenced code is open. -/
def isFence : Leaf → Bool
  | .fence _ _ _ => true
  | _ => false

theorem exists_of_isFence {leaf : Leaf} (h : leaf.isFence = true) :
    ∃ o value ending, leaf = .fence o value ending := by
  cases leaf with
  | fence o value ending => exact ⟨o, value, ending, rfl⟩
  | _ => cases h

theorem isFence_shift (d : Nat) (leaf : Leaf) : (leaf.shift d).isFence = leaf.isFence := by
  cases leaf <;> rfl

/-- The place where the code of a leaf starts. -/
def codeStart? : Leaf → Option Nat
  | .fence o _ _ => some o.start
  | .indented start _ _ _ => some start
  | _ => Option.none

/-- What a leaf gives out that comes to its end by the place `n`: its code if it is code. -/
inductive Ends (n : Nat) : Leaf → List Code → Prop
  | nothing {leaf : Leaf} : leaf.codeStart? = Option.none → Ends n leaf []
  | fence {o : FenceOpening} {value : List (List Char)} {ending : List Char} {stop : Nat}
      {text : List (List Char)} : stop ≤ n → Ends n (.fence o value ending) [o.code stop text]
  | indented {start stop : Nat} {value waiting : List (List Char)} {text : List Char} : stop ≤ n →
      Ends n (.indented start stop value waiting) [⟨⟨start, stop⟩, Option.none, Option.none, text⟩]

/-- The code of a leaf goes on up to the place `n`. -/
inductive GoesOn (n : Nat) : Leaf → Leaf → Prop
  | fence {o : FenceOpening} {value value' : List (List Char)} {ending ending' : List Char} :
      GoesOn n (.fence o value ending) (.fence o value' ending')
  | indented {start stop stop' : Nat} {value waiting value' waiting' : List (List Char)} :
      stop' ≤ n →
      GoesOn n (.indented start stop value waiting) (.indented start stop' value' waiting')

/-- What starts on a line of glyphs from the place `p` to the place `n`: code that is complete at
once, and the leaf that is open behind it. Indented code starts with a space. -/
inductive Begins (p n : Nat) (gs : List Glyph) : List Code → Leaf → Prop
  | nothing {next : Leaf} : next.codeStart? = Option.none → Begins p n gs [] next
  | fence {o : FenceOpening} {ending : List Char} : p ≤ o.start → o.start < n →
      Begins p n gs [] (.fence o [] ending)
  | indented {start stop : Nat} {value waiting : List (List Char)} :
      p ≤ start → start < n → stop ≤ n → (∃ g ∈ gs, g.isSpace = true ∧ g.start = start) →
      Begins p n gs [] (.indented start stop value waiting)
  | single {start stop : Nat} {text : List Char} : p ≤ start → start < n → stop ≤ n →
      (∃ g ∈ gs, g.isSpace = true ∧ g.start = start) →
      Begins p n gs [⟨⟨start, stop⟩, Option.none, Option.none, text⟩] .none

/-- What starts on a line starts on any line that it is a part of. -/
theorem Begins.mono {p n : Nat} {gs gs' : List Glyph} {codes : List Code} {next : Leaf}
    (h : Begins p n gs codes next) (hgs : gs ⊆ gs') : Begins p n gs' codes next := by
  cases h with
  | nothing hnone => exact .nothing hnone
  | fence hle hlt => exact .fence hle hlt
  | indented hle hlt hstop hspace =>
    obtain ⟨g, hg, hspace⟩ := hspace
    exact .indented hle hlt hstop ⟨g, hgs hg, hspace⟩
  | single hle hlt hstop hspace =>
    obtain ⟨g, hg, hspace⟩ := hspace
    exact .single hle hlt hstop ⟨g, hgs hg, hspace⟩

end Leaf

/-- A line stands between two places, and starts where its glyphs do. -/
structure Line.Within (p n : Nat) (l : Line) : Prop where
  glyphs : ∀ g ∈ l.glyphs, p ≤ g.start ∧ g.start < n
  start : ∀ g ∈ l.glyphs.head?, l.start = g.start
  stop : l.stop ≤ n

variable {p n : Nat} {leaf : Leaf} {line : Line}

/-! ## What a line starts -/

theorem FenceOpening.exists_of_read? {gs : List Glyph} {o : FenceOpening}
    (h : FenceOpening.read? gs = some o) :
    ∃ g rest, (Glyph.cutSpaces indentMax gs).2 = g :: rest ∧ g.isTick = true ∧
      o.start = g.start := by
  unfold FenceOpening.read? at h
  dsimp only at h
  split at h
  · cases h
  · next g rest hline =>
    split at h
    · next hg =>
      have htick : g.isTick = true := by
        rw [Glyph.isTick]
        simp only [Bool.and_eq_true] at hg
        exact hg.1.1
      exact ⟨g, rest, hline, htick, by rw [← Option.some.inj h]⟩
    · cases h

namespace Start

theorem read?_of_fence? {gs : List Glyph} {o : FenceOpening} (h : fence? gs = some (.fence o)) :
    FenceOpening.read? gs = some o := by
  obtain ⟨o', ho, heq⟩ := Option.map_eq_some_iff.mp h
  cases heq
  exact ho

theorem fence?_of_ofAny {m : Meeting} {o : FenceOpening} (h : ofAny leaf m line = .fence o) :
    fence? line.glyphs = some (.fence o) := by
  unfold ofAny at h
  dsimp only at h
  split at h
  · cases h
  · split at h
    · cases h
    · split at h
      · next s hs =>
        obtain rfl := h
        rcases Option.or_eq_some_iff.mp hs with hs | ⟨-, hs⟩
        · exact hs
        rcases Option.or_eq_some_iff.mp hs with hs | ⟨-, hs⟩
        · obtain ⟨_, -, heq⟩ := Option.map_eq_some_iff.mp hs
          cases heq
        · obtain ⟨_, -, heq⟩ := Option.map_eq_some_iff.mp hs
          cases heq
      · split at h
        · cases h
        · split at h
          · cases h
          · split at h
            · split at h
              · split at h
                · cases h
                · cases h
              · cases h
            · cases h

/-- Whether a start is one of code. -/
def isCode : Start → Bool
  | indented _ _ => true
  | fence _ => true
  | _ => false

/-- A line that starts code is told by its first glyph to be fenced, or is told by the others. -/
theorem fence?_or_ofAny_of_ofLine {m : Meeting} {s : Start} (hs : s.isCode = true)
    (h : ofLine leaf m line = s) : fence? line.glyphs = some s ∨ ofAny leaf m line = s := by
  have hgetD : ∀ {s' : Option Start}, s'.getD (.content none) = s → s' = some s := by
    intro s' hs'
    cases s' with
    | none =>
      obtain rfl := hs'
      cases hs
    | some s' => exact congrArg some hs'
  have hmap : ∀ {α : Type} {f : α → Start} {a? : Option α}, (∀ a, (f a).isCode = false) →
      a?.map f ≠ some s := by
    intro α f a? hf hmap
    obtain ⟨a, -, rfl⟩ := Option.map_eq_some_iff.mp hmap
    rw [hf] at hs
    cases hs
  unfold ofLine at h
  dsimp only at h
  split at h
  · obtain rfl := h
    cases hs
  · split at h
    · exact absurd (hgetD h) (hmap fun _ => rfl)
    · split at h
      · exact Or.inl (hgetD h)
      · split at h
        · have hbreak := hgetD h
          unfold thematicBreak? at hbreak
          split at hbreak
          · obtain rfl := Option.some.inj hbreak
            cases hs
          · cases hbreak
        · split at h
          · exact absurd (hgetD h) (hmap fun _ => rfl)
          · split at h
            · obtain rfl := h
              cases hs
            · exact Or.inr h

/-- A line that starts fenced code reads as its opening. -/
theorem fence?_of_ofLine {m : Meeting} {o : FenceOpening} (h : ofLine leaf m line = .fence o) :
    fence? line.glyphs = some (.fence o) :=
  (fence?_or_ofAny_of_ofLine rfl h).elim id fence?_of_ofAny

theorem read?_of_ofLine {m : Meeting} {o : FenceOpening} (h : ofLine leaf m line = .fence o) :
    FenceOpening.read? line.glyphs = some o :=
  read?_of_fence? (fence?_of_ofLine h)

theorem glyphs_ne_nil_of_ofLine {m : Meeting} (h : ofLine leaf m line ≠ .blank) :
    line.glyphs ≠ [] := by
  intro hnil
  refine h ?_
  unfold ofLine
  rw [hnil]
  rfl

theorem start_of_ofLine (hline : line.Within p n) {m : Meeting} (h : ofLine leaf m line ≠ .blank) :
    p ≤ line.start ∧ line.start < n := by
  obtain ⟨g, rest, hglyphs⟩ := List.exists_cons_of_ne_nil (glyphs_ne_nil_of_ofLine h)
  rw [hline.start g (by rw [hglyphs]; rfl)]
  exact hline.glyphs g (by rw [hglyphs]; exact List.mem_cons_self)

theorem takeIndent?_of_ofAny {m : Meeting} {rest : List Glyph} {single : Bool}
    (h : ofAny leaf m line = .indented rest single) :
    Container.takeIndent? Glyph.tabWidth line.glyphs = some rest := by
  unfold ofAny at h
  dsimp only at h
  split at h
  · cases h
  · split at h
    · next code hcode =>
      cases h
      split at hcode
      · cases hcode
      · exact hcode
    · split at h
      · next s hs =>
        obtain rfl := h
        simp [fence?, html?, heading?, Option.or_eq_some_iff] at hs
      · repeat' split at h
        all_goals cases h

/-- A line that starts indented code starts with a space. -/
theorem exists_space_of_ofLine {m : Meeting} {rest : List Glyph} {single : Bool}
    (h : ofLine leaf m line = .indented rest single) :
    ∃ g ∈ line.glyphs.head?, g.isSpace = true := by
  have hindent : Container.takeIndent? Glyph.tabWidth line.glyphs = some rest := by
    rcases fence?_or_ofAny_of_ofLine rfl h with hfence | hany
    · obtain ⟨_, -, heq⟩ := Option.map_eq_some_iff.mp hfence
      cases heq
    · exact takeIndent?_of_ofAny hany
  unfold Container.takeIndent? at hindent
  cases hglyphs : line.glyphs with
  | nil => simp [hglyphs, Glyph.cutSpaces, Glyph.tabWidth] at hindent
  | cons g gs =>
    refine ⟨g, rfl, ?_⟩
    by_contra hspace
    simp [hglyphs, Glyph.cutSpaces, Glyph.tabWidth, hspace] at hindent

/-- What a line starts on its own. -/
theorem begins_leaf (hline : line.Within p n) {m : Meeting} {s : Start}
    (h : ofLine leaf m line = s) :
    Leaf.Begins p n line.glyphs (codesOf (s.leaf line).1) (s.leaf line).2 := by
  cases s with
  | fence o =>
    obtain ⟨g, rest, hcut, -, hstart⟩ := FenceOpening.exists_of_read? (read?_of_ofLine h)
    have hmem : g ∈ line.glyphs :=
      (Glyph.cutSpaces_suffix indentMax line.glyphs).subset (by rw [hcut]; exact List.mem_cons_self)
    obtain ⟨hle, hlt⟩ := hline.glyphs g hmem
    exact .fence (by rw [hstart]; exact hle) (by rw [hstart]; exact hlt)
  | indented rest single =>
    obtain ⟨hle, hlt⟩ := start_of_ofLine hline (by rw [h]; exact nofun)
    obtain ⟨g, hg, hspace⟩ := exists_space_of_ofLine h
    have hstart : ∃ g ∈ line.glyphs, g.isSpace = true ∧ g.start = line.start :=
      ⟨g, List.mem_of_head? hg, hspace, (hline.start g hg).symm⟩
    cases single with
    | true => exact .single hle hlt hline.stop hstart
    | false => exact .indented hle hlt hline.stop hstart
  | html kind =>
    unfold Start.leaf
    dsimp only
    split
    · exact .nothing rfl
    · exact .nothing rfl
  | _ => exact .nothing rfl

end Start

/-! ## What becomes of a leaf -/

namespace Leaf

theorem ends_close (hleaf : leaf.StopsBy n) {c : Closing} (hc : leaf.endAt c ≤ n) :
    leaf.Ends n (codesOf (leaf.close c)) := by
  cases leaf with
  | fence o value ending =>
    cases c with
    | cut stop => exact .fence hc
    | flushed stop next => exact .fence hc
  | indented start stop value waiting => exact .indented (hleaf start stop value waiting rfl)
  | content lead lines head =>
    simp only [close, Content.codesOf_blocks]
    exact .nothing rfl
  | _ => exact .nothing rfl

/-- A line that a leaf takes goes on with its code, or ends it. -/
theorem cases_of_continue? (hline : line.Within p n) (hleaf : leaf.StopsBy n) {pierced : Bool}
    {bs : List Block} {next : Leaf}
    (h : leaf.continue? line pierced = some (bs, next)) :
    (codesOf bs = [] ∧ leaf.GoesOn n next) ∨
      leaf.Ends n (codesOf bs) ∧ next.codeStart? = Option.none := by
  unfold continue? at h
  split at h
  · split at h
    · cases h
      exact Or.inr ⟨.fence hline.stop, rfl⟩
    · cases h
      exact Or.inl ⟨rfl, .fence⟩
  · split at h
    · cases h
    · split at h
      · cases h
        exact Or.inr ⟨.nothing rfl, rfl⟩
      · cases h
        exact Or.inr ⟨.nothing rfl, rfl⟩
  · split at h
    · cases h
    · split at h
      · cases h
        exact Or.inl ⟨rfl, .indented hline.stop⟩
      · split at h
        · cases h
          exact Or.inl ⟨rfl, .indented (hleaf _ _ _ _ rfl)⟩
        · cases h
  · split at h
    · cases h
      rw [Content.codesOf_blocks]
      exact Or.inr ⟨.nothing rfl, rfl⟩
    · cases h
  · cases h

/-- A line that a leaf does not take ends it, and starts something. -/
theorem begins_meet (hline : line.Within p n) {m : Meeting} {s : Start}
    (h : Start.ofLine leaf m line = s) {stop : Nat} (hleaf : leaf.StopsBy n) (hstop : stop ≤ n) :
    ∃ ended new, codesOf (leaf.meet s line stop).1 = ended ++ new ∧ leaf.Ends n ended ∧
      Begins p n line.glyphs new (leaf.meet s line stop).2 := by
  -- what most leaves do: they come to their end, and the line makes the next leaf
  have hclose : ∃ ended new, codesOf (leaf.close (.cut stop) ++ (s.leaf line).1) = ended ++ new ∧
      leaf.Ends n ended ∧ Begins p n line.glyphs new (s.leaf line).2 :=
    ⟨_, _, codesOf_append _ _, ends_close hleaf (leaf.endAt_le hstop hstop).1,
      Start.begins_leaf hline h⟩
  cases leaf with
  | content lead lines head =>
    cases s with
    | content after => exact ⟨[], [], rfl, .nothing rfl, .nothing rfl⟩
    | underline =>
      -- neither the definitions nor the heading are code
      have hparts := Content.codesOf_parts lead lines
      unfold meet
      dsimp only
      split
      · next defs hdefs =>
        rw [hdefs] at hparts
        exact ⟨[], [], hparts, .nothing rfl, .nothing rfl⟩
      · next defs g text hdefs =>
        rw [hdefs] at hparts
        exact ⟨[], [], by rw [codesOf_append, hparts]; rfl, .nothing rfl, .nothing rfl⟩
    | _ => exact hclose
  | table start last rows =>
    cases s with
    | row => exact ⟨[], [], rfl, .nothing rfl, .nothing rfl⟩
    | _ => exact hclose
  | _ => exact hclose

end Leaf

/-! ## What a line does to an outline -/

theorem Line.stop_cutTo {l : Line} {rest : List Glyph} (h : rest <:+ l.glyphs) :
    (l.cutTo rest).stop = l.stop := by
  obtain ⟨front, hfront⟩ := h
  unfold cutTo
  cases rest with
  | nil => rfl
  | cons g more =>
    rw [stop, stop, Glyph.stopOf, Glyph.stopOf, ← hfront, List.getLast?_append]
    cases hlast : (g :: more).getLast? with
    | none => simp at hlast
    | some last => rfl

theorem Line.within_cutTo {l : Line} (h : l.Within p n) {rest : List Glyph}
    (hrest : rest <:+ l.glyphs) :
    (l.cutTo rest).Within p n := by
  refine ⟨fun g hg => h.glyphs g (hrest.subset hg), ?_, by rw [stop_cutTo hrest]; exact h.stop⟩
  intro g hg
  have hhead : rest.head? = some g := hg
  show Glyph.startOf l.stop rest = g.start
  rw [Glyph.startOf, hhead]

namespace Outline

theorem run_cons (o : Outline) (l : Line) (ls : List Line) :
    o.run (l :: ls) = ((o.step l).1 ++ ((o.step l).2.run ls).1, ((o.step l).2.run ls).2) := rfl

theorem codes_cons (o : Outline) (l : Line) (ls : List Line) :
    o.codes (l :: ls) = (o.step l).1 ++ (o.step l).2.codes ls := by
  rw [codes, run_cons, codes, List.append_assoc]

theorem codes_append (o : Outline) (ls ms : List Line) :
    o.codes (ls ++ ms) = (o.run ls).1 ++ (o.run ls).2.codes ms := by
  rw [codes, run_append, codes, List.append_assoc]

/-- What an outline holds stands before a place. -/
structure Before (n : Nat) (o : Outline) : Prop where
  stop : o.stop ≤ n
  next : o.next ≤ n
  leaf : o.leaf.StopsBy n

theorem Before.mono {m : Nat} {o : Outline} (h : o.Before n) (hle : n ≤ m) : o.Before m :=
  ⟨Nat.le_trans h.stop hle, Nat.le_trans h.next hle,
    fun start stop value waiting hleaf => Nat.le_trans (h.leaf start stop value waiting hleaf) hle⟩

/-- What a line of glyphs does to the code of a leaf: it goes on with it, or ends it and starts
something. -/
inductive Turns (p n : Nat) (gs : List Glyph) (leaf : Leaf) : List Code → Leaf → Prop
  | goesOn {next : Leaf} : leaf.GoesOn n next → Turns p n gs leaf [] next
  | ends {ended new : List Code} {next : Leaf} : leaf.Ends n ended → Leaf.Begins p n gs new next →
      Turns p n gs leaf (ended ++ new) next

theorem Turns.mono {gs gs' : List Glyph} {codes : List Code} {next : Leaf}
    (h : Turns p n gs leaf codes next) (hgs : gs ⊆ gs') : Turns p n gs' leaf codes next := by
  cases h with
  | goesOn hon => exact .goesOn hon
  | ends hends hbegins => exact .ends hends (hbegins.mono hgs)

theorem turns_feed {o : Outline} (ho : o.Before n) (hline : line.Within p n) (missing : Nat)
    (pierced : Bool) :
    Turns p n line.glyphs o.leaf (o.feed line missing pierced).1
      (o.feed line missing pierced).2.leaf := by
  unfold feed
  dsimp only
  split
  · next blocks next htaken =>
    split at htaken
    · cases htaken
    · rcases Leaf.cases_of_continue? hline ho.leaf htaken with ⟨hcodes, hon⟩ | ⟨hends, hnone⟩
      · rw [hcodes]
        exact .goesOn hon
      · rw [← List.append_nil (codesOf blocks)]
        exact .ends hends (.nothing hnone)
  · split
    · exact .ends (Leaf.ends_close ho.leaf (o.leaf.endAt_le ho.stop ho.next).1)
        (Start.begins_leaf hline rfl)
    · obtain ⟨ended, new, hcodes, hends, hbegins⟩ := Leaf.begins_meet hline rfl ho.leaf ho.stop
      dsimp only
      rw [hcodes]
      exact .ends hends hbegins

theorem suffix_of_continued (cs : List Container) (gs : List Glyph) :
    (continued cs gs).2 <:+ gs := by
  obtain ⟨front, hfront, -⟩ := exists_front_of_continued cs gs
  exact ⟨front, hfront.symm⟩

theorem suffix_of_started (o : Outline) (missing : Nat) (rest : List Glyph) :
    (o.started missing rest).2 <:+ rest := by
  unfold started
  split
  · exact List.suffix_rfl
  · exact suffix_of_opened _ _ _ _

theorem turns_place {o : Outline} (ho : o.Before n) {l : Line} (hl : l.Within p n) (missing : Nat)
    (new : List Container) {rest : List Glyph} (hrest : rest <:+ l.glyphs) :
    Turns p n l.glyphs o.leaf (o.place l missing new rest).1
      (o.place l missing new rest).2.leaf := by
  have hline := Line.within_cutTo hl hrest
  unfold place
  split
  · exact (turns_feed ho hline missing false).mono hrest.subset
  · -- the leaf ends, and the line meets an empty one behind the containers that it opens
    have hopening := turns_feed
      (o := { o with
        containers := new ++ o.containers.drop missing, leaf := .none, interrupting := false })
      ⟨ho.stop, ho.next, fun _ _ _ _ h => Leaf.noConfusion h⟩ hline 0 true
    have hends : o.leaf.Ends n o.flushed :=
      Leaf.ends_close ho.leaf (o.leaf.endAt_le ho.stop ho.next).2
    dsimp only
    generalize feed _ _ 0 true = fed at hopening ⊢
    obtain ⟨codes, after⟩ := fed
    dsimp only at hopening ⊢
    cases hopening with
    | goesOn h => cases h
    | ends hnone hbegins =>
      cases hnone
      exact .ends hends (hbegins.mono hrest.subset)

/-- **What a line does to the code of an outline.** -/
theorem turns_step {o : Outline} (ho : o.Before n) {l : Line} (hl : l.Within p n) :
    Turns p n l.glyphs o.leaf (o.step l).1 (o.step l).2.leaf := by
  unfold step
  dsimp only
  exact turns_place (o := o.goOn _) ⟨ho.stop, ho.next, ho.leaf⟩ hl _ _
    ((o.suffix_of_started _ _).trans (suffix_of_continued _ _))

theorem before_step {o : Outline} (ho : o.Before n) {l : Line} (hl : l.Within p n)
    (hnext : n ≤ l.next) :
    (o.step l).2.Before l.next := by
  refine ⟨Nat.le_trans hl.stop hnext, Nat.le_refl _, ?_⟩
  intro start stop value waiting hleaf
  have hturns := turns_step ho hl
  rw [hleaf] at hturns
  generalize (o.step l).1 = codes at hturns
  generalize o.leaf = leaf at hturns
  cases hturns with
  | goesOn h =>
    cases h with
    | indented hstop => exact Nat.le_trans hstop hnext
  | ends _ h =>
    cases h with
    | nothing h => cases h
    | indented _ _ hstop => exact Nat.le_trans hstop hnext

end Outline

/-! ## Lines of a text -/

theorem start_of_mem_glyphsAt {place column : Nat} {text : List Char} {g : Glyph}
    (h : g ∈ glyphsAt place column text) :
    place ≤ g.start ∧ g.start < place + Text.byteLength text := by
  induction text generalizing place column with
  | nil => cases h
  | cons c rest ih =>
    have hsize := c.utf8Size_pos
    rw [Text.byteLength]
    rw [glyphsAt] at h
    split at h
    · next hc =>
      have htab : c.utf8Size = 1 := by rw [hc]; rfl
      rcases List.mem_append.mp h with h | h
      · obtain ⟨i, -, rfl⟩ := List.mem_map.mp h
        dsimp only
        split <;> exact ⟨Nat.le_refl _, by dsimp only; omega⟩
      · have hstart := ih h
        omega
    · rcases List.mem_cons.mp h with rfl | h
      · exact ⟨Nat.le_refl _, by dsimp only; omega⟩
      · have hstart := ih h
        omega

theorem RawLine.within_lineAt (place : Nat) (r : RawLine) :
    (r.lineAt place).Within place (place + Text.byteLength r.text) := by
  refine ⟨fun g hg => start_of_mem_glyphsAt hg, ?_, by rw [stop_lineAt]⟩
  intro g hg
  have hne : r.text ≠ [] := by
    intro hnil
    have hhead : (glyphsAt place 0 r.text).head? = some g := hg
    rw [hnil] at hhead
    cases hhead
  have hstart := startOf_glyphsAt place 0 hne 0
  rw [Glyph.startOf, show (glyphsAt place 0 r.text).head? = some g from hg] at hstart
  exact hstart.symm

theorem RawLine.byteLength_text_le (r : RawLine) (place : Nat) :
    place + Text.byteLength r.text ≤ (r.lineAt place).next := by
  rw [next_lineAt, size, all, Text.byteLength_append]
  omega

namespace Outline

variable {o : Outline} {r : RawLine}

theorem before_step_lineAt (ho : o.Before p) (r : RawLine) :
    (o.step (r.lineAt p)).2.Before (p + r.size) := by
  have hbefore := before_step (ho.mono (Nat.le_add_right p (Text.byteLength r.text)))
    (r.within_lineAt p) (r.byteLength_text_le p)
  rwa [next_lineAt] at hbefore

theorem turns_step_lineAt (ho : o.Before p) (r : RawLine) :
    Turns p (p + Text.byteLength r.text) (r.lineAt p).glyphs o.leaf (o.step (r.lineAt p)).1
      (o.step (r.lineAt p)).2.leaf :=
  turns_step (ho.mono (Nat.le_add_right p _)) (r.within_lineAt p)

end Outline

/-- Code comes from a leaf: it starts there, and says the same if the leaf is fenced code. -/
def Leaf.Holds : Leaf → Code → Prop
  | .fence o _ _, c => ∃ stop text, c = o.code stop text
  | .indented start _ _ _, c => c.span.start = start
  | _, _ => False

namespace Leaf

theorem Holds.codeStart? {c : Code} (h : leaf.Holds c) : leaf.codeStart? = some c.span.start := by
  cases leaf with
  | fence o value ending =>
    obtain ⟨stop, text, rfl⟩ := h
    rfl
  | indented start stop value waiting => exact congrArg some h.symm
  | _ => exact h.elim

theorem Ends.stop_le {codes : List Code} (h : leaf.Ends n codes) :
    ∀ c ∈ codes, c.span.stop ≤ n := by
  intro c hc
  cases h with
  | nothing => cases hc
  | fence hstop => rw [List.mem_singleton.mp hc]; exact hstop
  | indented hstop => rw [List.mem_singleton.mp hc]; exact hstop

theorem Ends.holds {codes : List Code} (h : leaf.Ends n codes) :
    leaf.codeStart? = Option.none ∧ codes = [] ∨ ∃ c, codes = [c] ∧ leaf.Holds c := by
  cases h with
  | nothing h => exact Or.inl ⟨h, rfl⟩
  | fence => exact Or.inr ⟨_, rfl, _, _, rfl⟩
  | indented => exact Or.inr ⟨_, rfl, rfl⟩

theorem GoesOn.holds {next : Leaf} {c : Code} (h : leaf.GoesOn n next) (hc : next.Holds c) :
    leaf.Holds c := by
  cases h with
  | fence => exact hc
  | indented => exact hc

theorem GoesOn.codeStart? {next : Leaf} (h : leaf.GoesOn n next) :
    next.codeStart? = leaf.codeStart? ∧ leaf.codeStart? ≠ Option.none := by
  cases h with
  | fence => exact ⟨rfl, nofun⟩
  | indented => exact ⟨rfl, nofun⟩

/-- What starts on a line starts behind the place where the line does. -/
theorem Begins.le_start {gs : List Glyph} {codes : List Code} {next : Leaf}
    (h : Begins p n gs codes next) :
    (∀ c ∈ codes, p ≤ c.span.start ∧ c.span.start < n) ∧
      ∀ c, next.Holds c → p ≤ c.span.start ∧ c.span.start < n := by
  cases h with
  | nothing h =>
    refine ⟨by simp, fun c hc => ?_⟩
    rw [hc.codeStart?] at h
    cases h
  | fence hle hlt =>
    refine ⟨by simp, ?_⟩
    rintro c ⟨stop, text, rfl⟩
    exact ⟨hle, hlt⟩
  | indented hle hlt =>
    refine ⟨by simp, ?_⟩
    rintro c rfl
    exact ⟨hle, hlt⟩
  | single hle hlt =>
    refine ⟨?_, fun c hc => hc.elim⟩
    intro c hc
    rw [List.mem_singleton.mp hc]
    exact ⟨hle, hlt⟩

end Leaf

namespace Outline

/-- The code of an outline comes first, and all other code starts on the lines to come. -/
theorem codes_cases {o : Outline} (ho : o.Before p) (rs : List RawLine) :
    ∃ ended new, o.codes (linesAt p rs) = ended ++ new ∧
      (o.leaf.codeStart? = none ∧ ended = [] ∨ ∃ c, ended = [c] ∧ o.leaf.Holds c) ∧
      ∀ c ∈ new, p ≤ c.span.start := by
  induction rs generalizing o p with
  | nil =>
    have hends : o.leaf.Ends p o.flushed :=
      Leaf.ends_close ho.leaf (o.leaf.endAt_le ho.stop ho.next).2
    exact ⟨o.flushed, [], by rw [linesAt, codes, run, List.append_nil]; rfl, hends.holds, by simp⟩
  | cons r rest ih =>
    obtain ⟨ended, new, hcodes, hfirst, hnew⟩ := ih (before_step_lineAt ho r)
    have hall : o.codes (linesAt p (r :: rest)) = (o.step (r.lineAt p)).1 ++ (ended ++ new) := by
      rw [linesAt, codes_cons, hcodes]
    have hturns := turns_step_lineAt ho r
    rw [hall]
    generalize (o.step (r.lineAt p)).1 = codes at hturns ⊢
    generalize (o.step (r.lineAt p)).2.leaf = next at hturns hfirst
    cases hturns with
    | goesOn hon =>
      refine ⟨ended, new, rfl, ?_, fun c hc => Nat.le_trans (Nat.le_add_right p _) (hnew c hc)⟩
      rcases hfirst with ⟨hnone, -⟩ | ⟨c, rfl, hc⟩
      · exact absurd (hon.codeStart?.1 ▸ hnone) hon.codeStart?.2
      · exact Or.inr ⟨c, rfl, hon.holds hc⟩
    | @ends ended₀ new₀ _ hends hbegins =>
      refine ⟨ended₀, new₀ ++ (ended ++ new), List.append_assoc _ _ _, hends.holds, ?_⟩
      obtain ⟨hcodes₀, hholds⟩ := hbegins.le_start
      intro c hc
      rcases List.mem_append.mp hc with hc | hc
      · exact (hcodes₀ c hc).1
      rcases List.mem_append.mp hc with hc | hc
      · rcases hfirst with ⟨-, rfl⟩ | ⟨d, rfl, hd⟩
        · cases hc
        · rw [List.mem_singleton.mp hc]
          exact (hholds d hd).1
      · exact Nat.le_trans (Nat.le_add_right p _) (hnew c hc)

end Outline

end LiveDoc.Markdown
