import LiveDoc.Markdown.Block

/-!
# Lines of text

A line `StartsText` when it starts nothing else, be it a container or a leaf.
-/

namespace LiveDoc.Markdown

/-- Whether a line draws the lines of a table, under a head of any number of cells. -/
def Table.drawsRule (gs : List Glyph) : Bool :=
  let line := (Glyph.cutSpaces indentMax gs).2
  (rulesFrom (line.length + 1) false 0 line).any (·.1)

theorem Table.isRule_eq_false {gs : List Glyph} (h : drawsRule gs = false) (cells : Nat) :
    isRule cells gs = false := by
  unfold drawsRule at h
  unfold isRule
  dsimp only at h ⊢
  cases hrule : rulesFrom ((Glyph.cutSpaces indentMax gs).2.length + 1) false 0
      (Glyph.cutSpaces indentMax gs).2 with
  | none => rfl
  | some found =>
    rw [hrule] at h
    obtain ⟨drawn, count⟩ := found
    obtain rfl : drawn = false := h
    rfl

/-- A line whose first glyph is no space, and which starts nothing but text where it comes first,
or, if `behind`, where it follows a line of text. -/
structure StartsText (behind : Bool) (gs : List Glyph) : Prop where
  first : gs.head?.map Glyph.isSpace = some false
  container : ∀ interrupting, behind ≤ interrupting → Container.open? interrupting gs = none
  html : ∀ interrupting, behind ≤ interrupting → Html.Block.open? interrupting gs = none
  fence : FenceOpening.read? gs = none
  heading : Heading.text? gs = none
  underline : isUnderline gs = false
  thematicBreak : isThematicBreak gs = false

instance (behind : Bool) (gs : List Glyph) : Decidable (StartsText behind gs) :=
  decidable_of_iff
    (gs.head?.map Glyph.isSpace = some false ∧
      (∀ interrupting, behind ≤ interrupting → Container.open? interrupting gs = none) ∧
      (∀ interrupting, behind ≤ interrupting → Html.Block.open? interrupting gs = none) ∧
      FenceOpening.read? gs = none ∧ Heading.text? gs = none ∧ isUnderline gs = false ∧
      isThematicBreak gs = false)
    ⟨fun ⟨h₁, h₂, h₃, h₄, h₅, h₆, h₇⟩ => ⟨h₁, h₂, h₃, h₄, h₅, h₆, h₇⟩,
      fun ⟨h₁, h₂, h₃, h₄, h₅, h₆, h₇⟩ => ⟨h₁, h₂, h₃, h₄, h₅, h₆, h₇⟩⟩

/-- Whether the first character of a line tells what the line starts, whatever leaf is open. -/
def isMarker (c : Char) : Bool :=
  c = '#' || c = '`' || c = '~' || c = '*' || c = '_' || c = '<' || c = '$' || c = 'e' || c = 'i' ||
    c = '{'

/-- Whether a table is open, so that lines may be its rows. -/
def Leaf.isTable : Leaf → Bool
  | .table _ _ _ => true
  | _ => false

namespace StartsText

variable {behind : Bool} {gs : List Glyph}

theorem exists_cons (h : StartsText behind gs) : ∃ g rest, gs = g :: rest ∧ g.isSpace = false := by
  cases gs with
  | nil => cases h.first
  | cons g rest => exact ⟨g, rest, rfl, Option.some.inj h.first⟩

theorem cutSpaces_eq (h : StartsText behind gs) (n : Nat) : Glyph.cutSpaces n gs = ([], gs) := by
  obtain ⟨g, rest, rfl, hg⟩ := h.exists_cons
  cases n with
  | zero => rfl
  | succ n => simp [Glyph.cutSpaces, hg]

theorem not_blank (h : StartsText behind gs) : gs.all Glyph.isSpace = false := by
  obtain ⟨g, rest, rfl, hg⟩ := h.exists_cons
  simp [hg]

/-- No indentation can be taken off the line. -/
theorem takeIndent? (h : StartsText behind gs) {width : Nat} (hwidth : width ≠ 0) :
    Container.takeIndent? width gs = none := by
  rw [Container.takeIndent?, h.cutSpaces_eq]
  exact if_neg (Ne.symm hwidth)

/-- The line starts text, where no table is open that it may be a row of. -/
theorem ofLine {l : Line} (h : StartsText behind l.glyphs) (leaf : Leaf) {m : Meeting}
    (hm : behind = true → m.interrupting = true ∧ m.lazy = false)
    (hleaf : leaf.isTable = true → m.lazy = true ∨ ∀ c ∈ l.glyphs.head?, isMarker c.char = true) :
    ∃ head, Start.ofLine leaf m l = .content head := by
  obtain ⟨g, rest, hgs, hg⟩ := h.exists_cons
  have hfence : Start.fence? l.glyphs = none := by rw [Start.fence?, h.fence]; rfl
  have hheading : Start.heading? l.glyphs = none := by rw [Start.heading?, h.heading]; rfl
  have hbreak : Start.thematicBreak? l.glyphs = none := by
    rw [Start.thematicBreak?, h.thematicBreak]
    rfl
  have hhtml : Start.html? m l.glyphs = none := by
    rw [Start.html?, h.cutSpaces_eq, h.html]
    · rfl
    · cases behind with
      | false => exact Bool.false_le _
      | true =>
        obtain ⟨hint, hlazy⟩ := hm rfl
        rw [hint, hlazy]
        exact Bool.le_true _
  have hcode : (if m.interrupting then none
      else Container.takeIndent? Glyph.tabWidth l.glyphs) = none := by
    rw [h.takeIndent? (by decide)]
    split <;> rfl
  have hhead : l.glyphs.head?.map (·.char) = some g.char := by rw [hgs]; rfl
  unfold Start.ofLine
  dsimp only
  rw [hhead]
  dsimp only
  split
  · exact ⟨_, by rw [hheading]; rfl⟩
  · split
    · exact ⟨_, by rw [hfence]; rfl⟩
    · split
      · exact ⟨_, by rw [hbreak]; rfl⟩
      · split
        · exact ⟨_, by rw [hhtml]; rfl⟩
        · split
          · exact ⟨_, rfl⟩
          · rename_i hmark
            unfold Start.ofAny
            simp only [Line.isBlank, h.not_blank, hcode, hfence, hhtml, hheading, h.underline,
              h.thematicBreak]
            cases leaf with
            | table start stop rows =>
              rcases hleaf rfl with hlazy | hmarker
              · cases m.pierced <;> simp [hlazy]
              · have := hmarker g (by rw [hgs]; rfl)
                simp_all [isMarker]
            | _ => simp

end StartsText

/-! ## What a line starts -/

namespace Start

/-- What a line starts does not depend on the leaf, unless it underlines it or is a row of it. -/
theorem ofLine_eq_none {leaf : Leaf} {m : Meeting} {l : Line}
    (htable : leaf.isTable = false) (hunderline : isUnderline l.glyphs = false) :
    Start.ofLine leaf m l = Start.ofLine .none m l := by
  have hany : Start.ofAny leaf m l = Start.ofAny .none m l := by
    unfold Start.ofAny
    cases leaf with
    | table start stop rows => cases htable
    | _ => simp [hunderline]
  unfold Start.ofLine
  rw [hany]

/-- A blank line starts nothing. -/
theorem ofLine_of_isBlank {leaf : Leaf} {m : Meeting} {l : Line} (h : l.isBlank = true) :
    Start.ofLine leaf m l = .blank := by
  unfold Start.ofLine
  cases hgs : l.glyphs with
  | nil => rfl
  | cons g rest =>
    have hany : Start.ofAny leaf m l = .blank := by simp [Start.ofAny, h]
    rw [Line.isBlank, hgs, List.all_cons, Bool.and_eq_true] at h
    have hspace : g.char = ' ' ∨ g.char = '\t' := by simpa [Glyph.isSpace] using h.1
    simp only [List.head?_cons, Option.map_some, hany]
    rcases hspace with hg | hg <;> simp [hg]

/-- Where the first character does not tell what a line starts. -/
theorem ofLine_eq_ofAny {l : Line} {g : Glyph} (hhead : l.glyphs.head? = some g)
    (hmarker : isMarker g.char = false) (leaf : Leaf) (m : Meeting) :
    Start.ofLine leaf m l = Start.ofAny leaf m l := by
  simp only [isMarker, Bool.or_eq_false_iff, decide_eq_false_iff_not] at hmarker
  unfold Start.ofLine
  simp [hhead, hmarker]

/-- Where the first character tells what a line starts, the open leaf does not matter. -/
theorem ofLine_of_isMarker {l : Line} {g : Glyph} (hhead : l.glyphs.head? = some g)
    (hmarker : isMarker g.char = true) (leaf : Leaf) (m : Meeting) :
    ∃ o ∈ [heading? l.glyphs, fence? l.glyphs, thematicBreak? l.glyphs, html? m l.glyphs, none],
      Start.ofLine leaf m l = o.getD (.content none) := by
  unfold Start.ofLine
  simp only [hhead, Option.map_some]
  split
  · exact ⟨_, by simp, rfl⟩
  · split
    · exact ⟨fence? l.glyphs, by simp, rfl⟩
    · split
      · exact ⟨thematicBreak? l.glyphs, by simp, rfl⟩
      · split
        · exact ⟨html? m l.glyphs, by simp, rfl⟩
        · refine ⟨none, by simp, if_pos ?_⟩
          simp_all [isMarker]

/-- A line is text below a table only when its first character tells so. -/
theorem isMarker_of_ofLine {start stop : Nat} {rows : List Line} {m : Meeting} {l : Line}
    {head : Option Nat} (hm : m.lazy = false ∧ m.pierced = false)
    (h : Start.ofLine (.table start stop rows) m l = .content head) :
    ∀ g ∈ l.glyphs.head?, isMarker g.char = true := by
  intro g hg
  cases hmarker : isMarker g.char with
  | true => rfl
  | false =>
  exfalso
  rw [ofLine_eq_ofAny hg hmarker] at h
  have hmarked : (fence? l.glyphs).or ((html? m l.glyphs).or (heading? l.glyphs)) ≠
      some (.content head) := by
    intro hs
    simp [fence?, html?, heading?, Option.or_eq_some_iff] at hs
  unfold Start.ofAny at h
  simp only [hm.1, hm.2] at h
  split at h
  · cases h
  · split at h
    · cases h
    · split at h
      · next s hs => exact hmarked (h ▸ hs)
      · split at h
        · cases h
        · split at h
          · cases h
          · simp at h

/-- Only the line under a paragraph underlines it. -/
theorem acceptsLazy_of_ofLine {leaf : Leaf} {m : Meeting} {l : Line}
    (h : Start.ofLine leaf m l = .underline) :
    leaf.acceptsLazy = true ∧ m.lazy = false ∧ isUnderline l.glyphs = true := by
  have hmarked : (fence? l.glyphs).or ((html? m l.glyphs).or (heading? l.glyphs)) ≠
      some .underline := by
    intro hs
    simp [fence?, html?, heading?, Option.or_eq_some_iff] at hs
  cases hhead : l.glyphs.head? with
  | none => simp [Start.ofLine, hhead] at h
  | some g =>
    cases hmarker : isMarker g.char with
    | true =>
      obtain ⟨o, ho, heq⟩ := ofLine_of_isMarker hhead hmarker leaf m
      rw [heq] at h
      simp only [List.mem_cons, List.not_mem_nil, or_false] at ho
      rcases ho with rfl | rfl | rfl | rfl |
        rfl <;> simp [Option.getD_eq_iff, heading?, fence?, thematicBreak?, html?] at h
    | false =>
      rw [ofLine_eq_ofAny hhead hmarker] at h
      unfold Start.ofAny at h
      dsimp only at h
      split at h
      · cases h
      · split at h
        · cases h
        · split at h
          · next s hs => exact absurd (h ▸ hs) hmarked
          · split at h
            · next hunder =>
              simp only [Bool.and_eq_true, Bool.not_eq_true'] at hunder
              exact ⟨hunder.1.1.1, hunder.1.1.2, hunder.2⟩
            · exfalso
              revert h
              split
              · exact fun h => by cases h
              · split
                · cases m.lazy <;> cases m.pierced <;> simp
                · exact fun h => by cases h

end Start

/-- What is left of a line that does not start with enough spaces. -/
theorem Container.takeIndent?_of_cutSpaces {n width : Nat} {gs : List Glyph} {g : Glyph}
    {rest : List Glyph} (hcut : (Glyph.cutSpaces n gs).2 = g :: rest) (hg : g.isSpace = false)
    (hwidth : n < width) : Container.takeIndent? width gs = none := by
  have hsame : ∀ (n width : Nat) (gs : List Glyph), n < width →
      (Glyph.cutSpaces n gs).2 = g :: rest → (Glyph.cutSpaces width gs).1.length ≤ n := by
    intro n
    induction n with
    | zero =>
      intro width gs hwidth hcut
      obtain rfl : gs = g :: rest := hcut
      obtain ⟨w, rfl⟩ := Nat.exists_eq_succ_of_ne_zero (Nat.ne_of_gt hwidth)
      simp [Glyph.cutSpaces, hg]
    | succ n ih =>
      intro width gs hwidth hcut
      obtain ⟨w, rfl⟩ := Nat.exists_eq_succ_of_ne_zero (Nat.ne_of_gt (Nat.zero_lt_of_lt hwidth))
      cases gs with
      | nil => cases hcut
      | cons h more =>
        rw [Glyph.cutSpaces] at hcut ⊢
        split
        · next hspace =>
          rw [if_pos hspace] at hcut
          exact Nat.succ_le_succ (ih w more (Nat.lt_of_succ_lt_succ hwidth) hcut)
        · exact Nat.zero_le _
  have hlength := hsame n width gs hwidth hcut
  rw [Container.takeIndent?]
  exact if_neg (by omega)

namespace Start

/-- What a line starts that is not told by its first character, be it behind spaces. -/
theorem ofLine_of_cutSpaces {leaf : Leaf} {m : Meeting} {l : Line} {g : Glyph}
    {rest : List Glyph} (hcut : (Glyph.cutSpaces indentMax l.glyphs).2 = g :: rest)
    (hg : g.isSpace = false) (hmarker : isMarker g.char = false) :
    Start.ofLine leaf m l =
      if leaf.acceptsLazy && !m.lazy && !m.pierced && isUnderline l.glyphs then .underline
      else if isThematicBreak l.glyphs then .thematicBreak
      else if leaf.isTable && !m.pierced then (if m.lazy then .content none else .row)
      else .content (Table.headSize? l.glyphs) := by
  have hchar := hmarker
  simp only [isMarker, Bool.or_eq_false_iff, decide_eq_false_iff_not] at hchar
  have hhead : ∃ h, l.glyphs.head? = some h ∧ isMarker h.char = false := by
    cases hgs : l.glyphs with
    | nil => rw [hgs] at hcut; cases hcut
    | cons h more =>
      refine ⟨h, rfl, ?_⟩
      rw [hgs, indentMax, Glyph.cutSpaces] at hcut
      split at hcut
      · next hspace =>
        rcases (by simpa [Glyph.isSpace] using hspace : h.char = ' ' ∨ h.char = '\t') with hc | hc
        · rw [hc]; rfl
        · rw [hc]; rfl
      · obtain ⟨rfl, -⟩ := List.cons.inj hcut
        exact hmarker
  obtain ⟨h, hhead, hfirst⟩ := hhead
  have hblank : l.isBlank = false := by
    cases hall : l.isBlank with
    | false => rfl
    | true =>
      have hspaces : ∀ (n : Nat) (gs : List Glyph), gs.all Glyph.isSpace = true →
          (Glyph.cutSpaces n gs).2.all Glyph.isSpace = true := by
        intro n
        induction n with
        | zero => exact fun _ h => h
        | succ n ih =>
          intro gs hgs
          cases gs with
          | nil => rfl
          | cons k more =>
            rw [Glyph.cutSpaces]
            rw [List.all_cons, Bool.and_eq_true] at hgs
            rw [if_pos hgs.1]
            exact ih more hgs.2
      have := hspaces indentMax _ hall
      rw [hcut, List.all_cons, hg] at this
      cases this
  have hcode : (if m.interrupting then none
      else Container.takeIndent? Glyph.tabWidth l.glyphs) = none := by
    rw [Container.takeIndent?_of_cutSpaces hcut hg (by decide)]
    split <;> rfl
  have hfence : fence? l.glyphs = none := by
    simp [fence?, FenceOpening.read?, hcut, hchar]
  have hhtml : html? m l.glyphs = none := by
    simp [html?, hcut, Html.Block.open?, hchar]
  have hheading : heading? l.glyphs = none := by
    simp [heading?, Heading.text?, hcut, hchar]
  rw [ofLine_eq_ofAny hhead hfirst]
  unfold ofAny
  simp only [hblank, hcode, hfence, hhtml, hheading]
  cases leaf <;> rfl

end Start

namespace Start

/-- Under a paragraph a line that looks like an underline is one. -/
theorem ofLine_of_isUnderline {leaf : Leaf} {m : Meeting} {l : Line}
    (hleaf : leaf.acceptsLazy = true) (hm : m.lazy = false ∧ m.pierced = false)
    (h : isUnderline l.glyphs = true) : Start.ofLine leaf m l = .underline := by
  have hline := h
  unfold isUnderline at h
  split at h
  · cases h
  · next g rest hcut =>
    rw [Bool.and_eq_true, Bool.or_eq_true, decide_eq_true_eq, decide_eq_true_eq] at h
    have hg : g.isSpace = false ∧ isMarker g.char = false := by
      unfold Glyph.isSpace
      rcases h.1 with hc | hc
      · rw [hc]; exact ⟨rfl, rfl⟩
      · rw [hc]; exact ⟨rfl, rfl⟩
    rw [ofLine_of_cutSpaces hcut hg.1 hg.2, hleaf, hm.1, hm.2, hline]
    rfl

end Start

namespace Table

theorem exists_of_startsWith {c : Char} {gs : List Glyph} (h : Glyph.startsWith [c] gs = true) :
    ∃ g rest, gs = g :: rest ∧ g.char = c := by
  cases gs with
  | nil => cases h
  | cons g rest =>
    simp only [Glyph.startsWith, Bool.and_true, decide_eq_true_eq] at h
    exact ⟨g, rest, rfl, h⟩

/-- A row that draws lines starts with a bar, a colon or a dash, and holds a bar or a colon. -/
theorem exists_of_rulesFrom {fuel cells : Nat} {gs : List Glyph}
    (h : rulesFrom fuel false 0 gs = some (true, cells)) :
    ∃ g rest, gs = g :: rest ∧ (g.char = '|' ∨ g.char = ':' ∨ g.char = '-') ∧
      ∃ k ∈ gs, k.char = '|' ∨ k.char = ':' := by
  cases fuel with
  | zero => cases h
  | succ fuel =>
    unfold rulesFrom at h
    cases hbar : Glyph.startsWith ['|'] gs with
    | true =>
      obtain ⟨g, rest, rfl, hg⟩ := exists_of_startsWith hbar
      exact ⟨g, rest, rfl, Or.inl hg, g, List.mem_cons_self, Or.inl hg⟩
    | false =>
      cases hleft : Glyph.startsWith [':'] gs with
      | true =>
        obtain ⟨g, rest, rfl, hg⟩ := exists_of_startsWith hleft
        exact ⟨g, rest, rfl, Or.inr (Or.inl hg), g, List.mem_cons_self, Or.inr hg⟩
      | false =>
        simp only [hbar, hleft, Bool.false_eq_true, if_false, Bool.or_self, Bool.false_or] at h
        generalize hafter : (gs.dropWhile fun g => decide (g.char = '-')) = after at h
        have hmem : ∀ k ∈ after, k ∈ gs := fun k hk =>
          (List.dropWhile_suffix _).subset (hafter ▸ hk)
        split at h
        · cases h
        · split at h
          · cases h
          · next hdash =>
            simp only [Bool.not_eq_true', Bool.not_eq_false] at hdash
            obtain ⟨g, rest, rfl, hg⟩ := exists_of_startsWith hdash
            refine ⟨g, rest, rfl, Or.inr (Or.inr hg), ?_⟩
            cases hright : Glyph.startsWith [':'] after with
            | true =>
              obtain ⟨k, more, rfl, hk⟩ := exists_of_startsWith hright
              exact ⟨k, hmem k List.mem_cons_self, Or.inr hk⟩
            | false =>
              simp only [hright, Bool.false_eq_true, if_false] at h
              split at h
              · cases h
              · split at h
                · next hnext =>
                  obtain ⟨k, more, hk, hchar⟩ := exists_of_startsWith hnext
                  have hin : k ∈ Glyph.dropSpaces after := hk ▸ List.mem_cons_self
                  exact ⟨k, hmem k ((List.dropWhile_suffix _).subset hin), Or.inl hchar⟩
                · cases h

/-- A row that draws lines is text where no table can start. -/
theorem ofLine_of_isRule {cells : Nat} {m : Meeting} {l : Line}
    (h : isRule cells l.glyphs = true) :
    ∃ head, Start.ofLine .none m l = .content head := by
  unfold isRule at h
  dsimp only at h
  rw [beq_iff_eq] at h
  obtain ⟨g, rest, hcut, hg, k, hk, hkc⟩ := exists_of_rulesFrom h
  have hclass : g.isSpace = false ∧ isMarker g.char = false := by
    unfold Glyph.isSpace
    rcases hg with hc | hc | hc
    · rw [hc]; exact ⟨rfl, rfl⟩
    · rw [hc]; exact ⟨rfl, rfl⟩
    · rw [hc]; exact ⟨rfl, rfl⟩
  have hbreak : isThematicBreak l.glyphs = false := by
    unfold isThematicBreak
    rw [hcut]
    dsimp only
    rw [hcut] at hk
    rcases List.mem_cons.mp hk with rfl | hk
    · rcases hkc with hc | hc <;> simp [hc]
    · have hkspace : k.isSpace = false := by
        unfold Glyph.isSpace
        rcases hkc with hc | hc <;> rw [hc] <;> rfl
      rw [Bool.and_eq_false_iff, Bool.and_eq_false_iff]
      by_cases hgc : g.char = '-'
      · refine Or.inl (Or.inr ?_)
        rw [List.all_eq_false]
        refine ⟨k, hk, ?_⟩
        rw [hkspace, hgc]
        rcases hkc with hc | hc <;> rw [hc] <;> decide
      · refine Or.inl (Or.inl ?_)
        rcases hg with hc | hc | hc
        · rw [hc]; rfl
        · rw [hc]; rfl
        · exact absurd hc hgc
  refine ⟨Table.headSize? l.glyphs, ?_⟩
  rw [Start.ofLine_of_cutSpaces hcut hclass.1 hclass.2, hbreak]
  rfl

end Table

/-- Whether a container asks for nothing at the start of a line. -/
def Container.isOpenEnded : Container → Bool
  | .item _ 0 _ => true
  | _ => false

/-- Whether a leaf outside of all containers ends where a line of text with the given first
character comes. -/
def Leaf.givesWay (c : Char) : Leaf → Bool
  | .none | .underlined | .indented _ _ _ _ => true
  | .table _ _ _ => isMarker c
  | _ => false

/-- Whether a block is a paragraph. -/
def Block.isParagraph : Block → Bool
  | .text .paragraph _ _ | .bare .paragraph _ => true
  | _ => false

/-- Whether a leaf is a paragraph, as far as can be told. -/
def Leaf.isText : Leaf → Bool
  | .content _ _ _ => true
  | _ => false

/-- What a line starts on its own is a paragraph only when the line is text, or looks like an
underline. -/
theorem Start.leaf_of_isText {s : Start} {l : Line} (h : (s.leaf l).2.isText = true) :
    (s.leaf l).1 = [] ∧ ((∃ head, s = .content head ∧ (s.leaf l).2 = .content none [l] head) ∨
      s = .underline ∧ (s.leaf l).2 = .content (some l) [] none) := by
  cases s with
  | content head => exact ⟨rfl, Or.inl ⟨head, rfl, rfl⟩⟩
  | underline => exact ⟨rfl, Or.inr ⟨rfl, rfl⟩⟩
  | indented rest single =>
    exfalso
    cases single <;> cases h
  | html kind =>
    exfalso
    unfold Start.leaf at h
    dsimp only at h
    split at h <;> cases h
  | _ => cases h

/-- A leaf that is no paragraph becomes one only by giving way to the line. -/
theorem Leaf.meet_of_isText {leaf : Leaf} {s : Start} {l : Line} {stop : Nat}
    (hleaf : leaf.isText = false) (h : (leaf.meet s l stop).2.isText = true) :
    leaf.meet s l stop = (leaf.close (.cut stop), (s.leaf l).2) ∧ (s.leaf l).2.isText = true := by
  have hmeet : leaf.meet s l stop = (leaf.close (.cut stop) ++ (s.leaf l).1, (s.leaf l).2) := by
    cases leaf with
    | content lead lines head => cases hleaf
    | table start last rows =>
      cases s with
      | row => cases h
      | _ => rfl
    | _ => rfl
  rw [hmeet] at h ⊢
  rw [(Start.leaf_of_isText h).1, List.append_nil]
  exact ⟨rfl, h⟩

/-- A line that a leaf takes for itself makes no paragraph of it. -/
theorem Leaf.isText_continue? {leaf next : Leaf} {l : Line} {pierced : Bool} {bs : List Block}
    (h : leaf.continue? l pierced = some (bs, next)) : next.isText = false := by
  unfold Leaf.continue? at h
  grind [Leaf.isText]

theorem Start.isParagraph_leaf (s : Start) (l : Line) :
    ∀ b ∈ (s.leaf l).1, b.isParagraph = false := by
  cases s with
  | indented rest single => cases single <;> simp [Start.leaf, Leaf.close, Block.isParagraph]
  | html kind =>
    unfold Start.leaf
    dsimp only
    split <;> simp [Block.isParagraph]
  | _ => simp [Start.leaf, Block.isParagraph]

theorem Leaf.isParagraph_close {leaf : Leaf} (h : leaf.isText = false)
    (c : Closing) : ∀ b ∈ leaf.close c, b.isParagraph = false := by
  cases leaf with
  | content lead lines head => cases h
  | fence o value ending => cases c <;> simp [Leaf.close, FenceOpening.block, Block.isParagraph]
  | _ => simp [Leaf.close, Block.isParagraph]

theorem Leaf.isParagraph_continue? {leaf next : Leaf} {l : Line}
    {pierced : Bool} {bs : List Block} (h : leaf.isText = false)
    (htaken : leaf.continue? l pierced = some (bs, next)) : ∀ b ∈ bs, b.isParagraph = false := by
  unfold Leaf.continue? at htaken
  grind [Leaf.isText, Block.isParagraph, FenceOpening.block]

theorem Leaf.isParagraph_meet {leaf : Leaf} (h : leaf.isText = false)
    (s : Start) (l : Line) (stop : Nat) : ∀ b ∈ (leaf.meet s l stop).1, b.isParagraph = false := by
  have hboth : ∀ b ∈ leaf.close (.cut stop) ++ (s.leaf l).1, b.isParagraph = false := by
    intro b hb
    rcases List.mem_append.mp hb with hb | hb
    · exact leaf.isParagraph_close h _ b hb
    · exact s.isParagraph_leaf l b hb
  cases leaf with
  | content lead lines head => cases h
  | table start last rows =>
    cases s with
    | row => simp [Leaf.meet]
    | _ => exact hboth
  | _ => exact hboth

end LiveDoc.Markdown
