import Mathlib.Data.List.Chain
import LiveDoc.Proofs.Markdown.ShiftStep
import LiveDoc.Proofs.Text.Breaks

/-!
# Lines as they stand in a text

A `RawLine` is the text of a line and its line end. `rawLines` cuts a text into them, and `linesAt`
makes the lines of the Markdown reader of them, from a place on.

* `rawLines_flat` — lines that are `Proper` are read back from the text they make;
* `map_shift_ofText` — the reader sees the raw lines of a text, whatever stands around a glyph;
* `linesAt_shift` — a text that stands elsewhere makes the same lines, moved along.
-/

namespace LiveDoc.Markdown

open Text (isUnbroken IsEnding byteLength byteLength_append)

/-- A line and its line end, which is empty for a line that ends with the text. -/
structure RawLine where
  text : List Char
  ending : List Char
  deriving DecidableEq, Repr

namespace RawLine

/-- The text of a line with its line end. -/
def all (r : RawLine) : List Char := r.text ++ r.ending

/-- The size of a line in bytes. -/
def size (r : RawLine) : Nat := byteLength r.all

end RawLine

/-- The text that lines make. -/
def flat (rs : List RawLine) : List Char := rs.flatMap RawLine.all

@[simp] theorem flat_nil : flat [] = [] := rfl

@[simp] theorem flat_cons (r : RawLine) (rs : List RawLine) :
    flat (r :: rs) = r.text ++ r.ending ++ flat rs := rfl

@[simp] theorem flat_append (rs ts : List RawLine) : flat (rs ++ ts) = flat rs ++ flat ts :=
  List.flatMap_append

/-- The lines of a text. -/
def rawLines : List Char → List RawLine
  | [] => []
  | '\r' :: '\n' :: rest => ⟨[], ['\r', '\n']⟩ :: rawLines rest
  | c :: rest =>
    if c = '\n' || c = '\r' then ⟨[], [c]⟩ :: rawLines rest
    else
      match rawLines rest with
      | [] => [⟨[c], []⟩]
      | r :: rs => ⟨c :: r.text, r.ending⟩ :: rs

/-- Whether a line can end so in front of a text: a carriage return in front of a line feed belongs
to it. -/
def IsEnd (ending next : List Char) : Prop :=
  IsEnding ending ∨ ending = ['\r'] ∧ next.head? ≠ some '\n'

/-- Whether a line can stand in a text: it holds no line end but its own, and is not nothing. -/
structure RawLine.Sound (r : RawLine) : Prop where
  text : ∀ c ∈ r.text, isUnbroken c
  ending : r.ending = [] ∨ IsEnding r.ending ∨ r.ending = ['\r']
  ne_nil : r.all ≠ []

/-- Whether a line can stand in front of another one. -/
def RawLine.Leads (r s : RawLine) : Prop :=
  r.ending ≠ [] ∧ (r.ending = ['\r'] → s.all.head? ≠ some '\n')

/-- Whether lines are those of the text that they make. -/
structure WellFormed (rs : List RawLine) : Prop where
  sound : ∀ r ∈ rs, r.Sound
  leads : rs.IsChain RawLine.Leads

theorem rawLines_nil : rawLines [] = [] := by
  rw [rawLines]

theorem rawLines_cons {c : Char} (hc : isUnbroken c) (rest : List Char) :
    rawLines (c :: rest) =
      match rawLines rest with
      | [] => [⟨[c], []⟩]
      | r :: rs => ⟨c :: r.text, r.ending⟩ :: rs := by
  rw [rawLines]
  · simp [hc.1, hc.2]
  · intro more hcr _
    exact absurd hcr hc.2

theorem rawLines_end {ending rest : List Char} (h : IsEnd ending rest) :
    rawLines (ending ++ rest) = ⟨[], ending⟩ :: rawLines rest := by
  rcases h with (rfl | rfl) | ⟨rfl, hrest⟩
  · rw [List.singleton_append, rawLines]
    · simp
    · simp
  · exact rawLines.eq_2 rest
  · rw [List.singleton_append, rawLines]
    · simp
    · rintro more _ rfl
      simp at hrest

/-- A text without line ends in front of a line end makes one line. -/
theorem rawLines_append {line ending rest : List Char} (h : ∀ c ∈ line, isUnbroken c)
    (he : IsEnd ending rest) :
    rawLines (line ++ ending ++ rest) = ⟨line, ending⟩ :: rawLines rest := by
  induction line with
  | nil => exact rawLines_end he
  | cons c more ih =>
    have hmore := ih fun d hd => h d (List.mem_cons_of_mem c hd)
    rw [List.append_assoc] at hmore
    rw [List.append_assoc, List.cons_append, rawLines_cons (h c List.mem_cons_self), hmore]

/-- A text without line ends is one line, unless it is empty. -/
theorem rawLines_unbroken {line : List Char} (h : ∀ c ∈ line, isUnbroken c) (hne : line ≠ []) :
    rawLines line = [⟨line, []⟩] := by
  induction line with
  | nil => exact absurd rfl hne
  | cons c rest ih =>
    rw [rawLines_cons (h c List.mem_cons_self)]
    cases rest with
    | nil => rw [rawLines_nil]
    | cons d more => rw [ih (fun e he => h e (List.mem_cons_of_mem c he)) (by simp)]

theorem WellFormed.tail {r : RawLine} {rs : List RawLine} (h : WellFormed (r :: rs)) :
    WellFormed rs :=
  ⟨fun s hs => h.sound s (List.mem_cons_of_mem r hs), List.isChain_of_isChain_cons h.leads⟩

theorem WellFormed.right {rs ys : List RawLine} (h : WellFormed (rs ++ ys)) : WellFormed ys :=
  ⟨fun r hr => h.sound r (List.mem_append_right _ hr), (List.isChain_append.mp h.leads).2.1⟩

/-- Lines are read back from their text. -/
theorem rawLines_flat {rs : List RawLine} (h : WellFormed rs) : rawLines (flat rs) = rs := by
  induction rs with
  | nil => exact rawLines_nil
  | cons r rest ih =>
    have hr := h.sound r List.mem_cons_self
    obtain ⟨text, ending⟩ := r
    rw [flat_cons]
    cases rest with
    | nil =>
      have htext : ∀ c ∈ text, isUnbroken c := hr.text
      rcases hr.ending with hend | hend
      · obtain rfl : ending = [] := hend
        have hne : text ≠ [] := by
          have hall := hr.ne_nil
          rw [RawLine.all, List.append_nil] at hall
          exact hall
        rw [flat_nil, List.append_nil, List.append_nil]
        exact rawLines_unbroken htext hne
      · have hend' : IsEnd ending [] := hend.imp_right fun hcr => ⟨hcr, by simp⟩
        have happend := rawLines_append htext hend'
        rwa [rawLines_nil] at happend
    | cons s more =>
      have hleads : RawLine.Leads ⟨text, ending⟩ s := (List.isChain_cons_cons.mp h.leads).1
      have hs := h.sound s (by simp)
      have hhead : (flat (s :: more)).head? = s.all.head? := by
        rw [flat_cons, ← RawLine.all]
        cases hall : s.all with
        | nil => exact absurd hall hs.ne_nil
        | cons c rest => rfl
      have hend : IsEnd ending (flat (s :: more)) := by
        rcases hr.ending with hnil | hend | hcr
        · exact absurd hnil hleads.1
        · exact Or.inl hend
        · exact Or.inr ⟨hcr, by rw [hhead]; exact hleads.2 hcr⟩
      rw [rawLines_append hr.text hend, ih h.tail]

theorem flat_rawLines (s : List Char) : flat (rawLines s) = s := by
  induction s using rawLines.induct with
  | case1 => rw [rawLines_nil]; rfl
  | case2 rest ih => rw [rawLines, flat_cons, ih]; rfl
  | case3 c rest hne hc ih =>
    rw [rawLines, if_pos hc, flat_cons, ih]
    · rfl
    · exact hne
  | case4 c rest hne hc hnil ih =>
    have hu : isUnbroken c := by simpa [isUnbroken] using hc
    rw [rawLines_cons hu, hnil]
    rw [hnil] at ih
    rw [← ih]
    rfl
  | case5 c rest hne hc r rs hcons ih =>
    have hu : isUnbroken c := by simpa [isUnbroken] using hc
    rw [rawLines_cons hu, hcons]
    rw [hcons] at ih
    rw [← ih]
    rfl

theorem WellFormed.cons {r : RawLine} {rs : List RawLine} (hr : r.Sound) (h : WellFormed rs)
    (hleads : ∀ s ∈ rs.head?, r.Leads s) : WellFormed (r :: rs) := by
  refine ⟨?_, List.isChain_cons.mpr ⟨hleads, h.leads⟩⟩
  intro s hs
  rcases List.mem_cons.mp hs with rfl | hs
  · exact hr
  · exact h.sound s hs

/-- The first line of a text starts as the text does. -/
theorem head?_of_mem_head? {rs : List RawLine} (h : WellFormed rs) {r : RawLine}
    (hr : r ∈ rs.head?) : r.all.head? = (flat rs).head? := by
  cases rs with
  | nil => cases hr
  | cons s rest =>
    obtain rfl : s = r := Option.some.inj hr
    rw [flat_cons, ← RawLine.all]
    cases hall : s.all with
    | nil => exact absurd hall (h.sound s List.mem_cons_self).ne_nil
    | cons c more => rfl

/-- The lines of a text can stand in it. -/
theorem wellFormed_rawLines (s : List Char) : WellFormed (rawLines s) := by
  induction s using rawLines.induct with
  | case1 => rw [rawLines_nil]; exact ⟨fun _ h => absurd h List.not_mem_nil, .nil⟩
  | case2 rest ih =>
    rw [rawLines]
    exact ih.cons ⟨by simp, Or.inr (Or.inl (Or.inr rfl)), by simp [RawLine.all]⟩
      fun s _ => ⟨by simp, by simp⟩
  | case3 c rest hne hc ih =>
    rw [rawLines, if_pos hc]
    · rcases (by simpa using hc : c = '\n' ∨ c = '\r') with rfl | rfl
      · exact ih.cons ⟨by simp, Or.inr (Or.inl (Or.inl rfl)), by simp [RawLine.all]⟩
          fun s _ => ⟨by simp, by simp⟩
      · refine ih.cons ⟨by simp, Or.inr (Or.inr rfl), by simp [RawLine.all]⟩ fun s hs => ?_
        refine ⟨by simp, fun _ hhead => ?_⟩
        rw [head?_of_mem_head? ih hs, flat_rawLines] at hhead
        obtain ⟨more, rfl⟩ := List.head?_eq_some_iff.mp hhead
        exact hne more rfl rfl
    · exact hne
  | case4 c rest hne hc hnil ih =>
    have hu : isUnbroken c := by simpa [isUnbroken] using hc
    rw [rawLines_cons hu, hnil]
    have hnone : WellFormed [] := ⟨fun _ h => absurd h List.not_mem_nil, .nil⟩
    exact hnone.cons ⟨by simpa using hu, Or.inl rfl, by simp [RawLine.all]⟩
      fun s hs => by cases hs
  | case5 c rest hne hc r rs hcons ih =>
    have hu : isUnbroken c := by simpa [isUnbroken] using hc
    rw [rawLines_cons hu, hcons]
    rw [hcons] at ih
    have hr := ih.sound r List.mem_cons_self
    refine ih.tail.cons ⟨?_, hr.ending, by simp [RawLine.all]⟩ (List.isChain_cons.mp ih.leads).1
    intro d hd
    rcases List.mem_cons.mp hd with rfl | hd
    · exact hu
    · exact hr.text d hd

/-- The last line of a text may have another line end, or none. -/
theorem WellFormed.set_ending {front : List RawLine} {text closing ending : List Char}
    (h : WellFormed (front ++ [⟨text, closing⟩])) (hne : text ≠ [])
    (hending : ending = [] ∨ IsEnding ending ∨ ending = ['\r']) :
    WellFormed (front ++ [⟨text, ending⟩]) := by
  obtain ⟨hfront, -, hleads⟩ := List.isChain_append.mp h.leads
  refine ⟨?_, List.isChain_append.mpr ⟨hfront, .singleton _, ?_⟩⟩
  · intro r hr
    rcases List.mem_append.mp hr with hr | hr
    · exact h.sound r (List.mem_append_left _ hr)
    · rw [List.mem_singleton.mp hr]
      exact ⟨(h.sound ⟨text, closing⟩ (by simp)).text, hending, by simp [RawLine.all, hne]⟩
  · intro r hr s hs
    obtain rfl : ⟨text, ending⟩ = s := by simpa using hs
    obtain ⟨hends, hcr⟩ := hleads r hr ⟨text, closing⟩ (by simp)
    refine ⟨hends, fun hreturn => ?_⟩
    have hhead := hcr hreturn
    obtain ⟨c, rest, rfl⟩ := List.exists_cons_of_ne_nil hne
    exact hhead

/-- A text whose last line ends so, without this line end. -/
theorem exists_front {rs : List RawLine} {text ending : List Char}
    (hlast : rs.getLast?.map RawLine.ending = some ending) (hflat : flat rs = text ++ ending) :
    ∃ front last, rs = front ++ [⟨last, ending⟩] ∧ text = flat (front ++ [⟨last, []⟩]) := by
  obtain ⟨⟨last, closing⟩, hmem, hclosing⟩ := Option.map_eq_some_iff.mp hlast
  obtain ⟨front, rfl⟩ := List.getLast?_eq_some_iff.mp hmem
  obtain rfl : closing = ending := hclosing
  refine ⟨front, last, rfl, ?_⟩
  rw [flat_append, flat_cons, flat_nil, List.append_nil, ← List.append_assoc,
    List.append_left_inj] at hflat
  rw [← hflat]
  simp

/-! ## Raw lines at their places -/

/-- The glyphs of a text without line ends, from a place and a column on. -/
def glyphsAt : (place column : Nat) → List Char → List Glyph
  | _, _, [] => []
  | place, column, c :: rest =>
    if c = '\t' then
      Line.tabColumns place column none none ++
        glyphsAt (place + 1) (column + (Line.tabColumns place column none none).length) rest
    else
      ⟨c, [c], place, place + c.utf8Size, 0, none, none⟩ ::
        glyphsAt (place + c.utf8Size) (column + c.utf8Size) rest

/-- The glyph of a line end. -/
def endGlyph? (place : Nat) (ending : List Char) : Option Glyph :=
  if ending = [] then none
  else some ⟨'\n', ending, place, place + byteLength ending, 0, none, none⟩

/-- The line that stands at a place. -/
def RawLine.lineAt (place : Nat) (r : RawLine) : Line :=
  ⟨glyphsAt place 0 r.text, endGlyph? (place + byteLength r.text) r.ending, place⟩

/-- Lines one after the other, from a place on. -/
def linesAt : (place : Nat) → List RawLine → List Line
  | _, [] => []
  | place, r :: rs => r.lineAt place :: linesAt (place + r.size) rs

theorem linesAt_append (place : Nat) (rs ts : List RawLine) :
    linesAt place (rs ++ ts) = linesAt place rs ++ linesAt (place + byteLength (flat rs)) ts := by
  induction rs generalizing place with
  | nil => rfl
  | cons r rest ih =>
    have hsize : place + r.size + byteLength (flat rest) =
        place + byteLength (flat (r :: rest)) := by
      rw [flat_cons, byteLength_append (r.text ++ r.ending), RawLine.size, RawLine.all,
        Nat.add_assoc]
    rw [List.cons_append, linesAt, linesAt, ih, hsize, List.cons_append]

theorem shifted_tabColumns (d place column : Nat) (before after : Option Char) :
    shifted d (Line.tabColumns place column before after) =
      Line.tabColumns (place + d) column none none := by
  simp only [Line.tabColumns, shifted, List.map_map]
  refine List.map_congr_left fun i _ => ?_
  have hstop : (if i + 1 = Glyph.tabWidth - column % Glyph.tabWidth then place + 1 else place) + d =
      if i + 1 = Glyph.tabWidth - column % Glyph.tabWidth then place + d + 1 else place + d := by
    split
    · rw [Nat.add_right_comm]
    · rfl
  simp only [Function.comp_apply]
  by_cases hi : i = 0
  · rw [if_pos hi, if_pos hi]
    simp only [Glyph.shift, hstop]
  · rw [if_neg hi, if_neg hi]
    simp only [Glyph.shift, hstop]

theorem length_tabColumns (place column : Nat) (before after : Option Char) :
    (Line.tabColumns place column before after).length =
      Glyph.tabWidth - column % Glyph.tabWidth := by
  simp [Line.tabColumns]

theorem tabColumns_ne_nil (place column : Nat) (before after : Option Char) :
    Line.tabColumns place column before after ≠ [] := by
  have hwidth : 0 < Glyph.tabWidth - column % Glyph.tabWidth :=
    Nat.sub_pos_of_lt (Nat.mod_lt column (by decide))
  rw [← length_tabColumns place column before after] at hwidth
  exact List.ne_nil_of_length_pos hwidth

/-- Glyphs that stand elsewhere are moved along. -/
theorem glyphsAt_shift (d place column : Nat) (text : List Char) :
    glyphsAt (place + d) column text = shifted d (glyphsAt place column text) := by
  induction text generalizing place column with
  | nil => rfl
  | cons c rest ih =>
    rw [glyphsAt, glyphsAt]
    split
    · rw [shifted_append, shifted_tabColumns, ← ih, Nat.add_right_comm, length_tabColumns,
        length_tabColumns]
    · rw [shifted_cons, ← ih, Nat.add_right_comm]

theorem lineAt_shift (d place : Nat) (r : RawLine) :
    r.lineAt (place + d) = (r.lineAt place).shift d := by
  have hend : endGlyph? (place + d + byteLength r.text) r.ending =
      (endGlyph? (place + byteLength r.text) r.ending).map (Glyph.shift d) := by
    unfold endGlyph?
    split
    · rfl
    · simp only [Option.map_some, Glyph.shift, Option.some.injEq, Glyph.mk.injEq, true_and,
        and_true]
      omega
  rw [RawLine.lineAt, RawLine.lineAt, Line.shift, glyphsAt_shift, hend]

/-- Lines that stand elsewhere are moved along. -/
theorem linesAt_shift (d place : Nat) (rs : List RawLine) :
    linesAt (place + d) rs = (linesAt place rs).map (Line.shift d) := by
  induction rs generalizing place with
  | nil => rfl
  | cons r rest ih =>
    rw [linesAt, linesAt, List.map_cons, lineAt_shift, ← ih, Nat.add_right_comm]

/-! ## The lines of the reader -/

/-- Behind a line end the reading starts anew. -/
theorem map_shift_fresh {rest : List Char}
    (h : ∀ (lineStart place column : Nat) (before : Option Char) (glyphs : List Glyph),
      (Line.read lineStart place column before glyphs rest).map (Line.shift 0) =
        match rawLines rest with
        | [] => if glyphs.isEmpty then [] else [⟨(shifted 0 glyphs).reverse, none, lineStart⟩]
        | r :: rs =>
          ⟨(shifted 0 glyphs).reverse ++ glyphsAt place column r.text,
            endGlyph? (place + byteLength r.text) r.ending, lineStart⟩ ::
              linesAt (place + r.size) rs) (place : Nat) (before : Option Char) :
    (Line.read place place 0 before [] rest).map (Line.shift 0) =
      linesAt place (rawLines rest) := by
  rw [h]
  cases rawLines rest <;> rfl

/-- Reading goes on from the glyphs of a line that was read in part. -/
theorem map_shift_read (s : List Char) : ∀ (lineStart place column : Nat) (before : Option Char)
    (glyphs : List Glyph),
    (Line.read lineStart place column before glyphs s).map (Line.shift 0) =
      match rawLines s with
      | [] => if glyphs.isEmpty then [] else [⟨(shifted 0 glyphs).reverse, none, lineStart⟩]
      | r :: rs =>
        ⟨(shifted 0 glyphs).reverse ++ glyphsAt place column r.text,
          endGlyph? (place + byteLength r.text) r.ending, lineStart⟩ ::
            linesAt (place + r.size) rs := by
  induction s using rawLines.induct with
  | case1 =>
    intro lineStart place column before glyphs
    rw [Line.read, rawLines_nil]
    cases glyphs with
    | nil => rfl
    | cons g gs => simp [Line.shift]
  | case2 rest ih =>
    intro lineStart place column before glyphs
    rw [Line.read, List.map_cons, rawLines, map_shift_fresh ih]
    have hcr : '\r'.utf8Size = 1 := rfl
    have hlf : '\n'.utf8Size = 1 := rfl
    simp [Line.shift, glyphsAt, endGlyph?, byteLength, RawLine.size, RawLine.all, hcr, hlf]
  | case3 c rest hne hc ih =>
    intro lineStart place column before glyphs
    have hsize : c.utf8Size = 1 := by
      rcases (by simpa using hc : c = '\n' ∨ c = '\r') with rfl | rfl <;> rfl
    rw [Line.read, if_pos hc, List.map_cons, rawLines, if_pos hc, map_shift_fresh ih]
    · simp [Line.shift, glyphsAt, endGlyph?, byteLength, RawLine.size, RawLine.all, hsize]
    · exact hne
    · exact hne
  | case4 c rest hne hc hnil ih | case5 c rest hne hc r rs hcons ih =>
    intro lineStart place column before glyphs
    have hu : isUnbroken c := by simpa [isUnbroken] using hc
    rw [Line.read, if_neg hc, rawLines_cons hu]
    · split
      · next htab =>
        subst htab
        have hsize : '\t'.utf8Size = 1 := rfl
        rw [ih]
        simp [*, glyphsAt, linesAt, shifted_tabColumns, tabColumns_ne_nil, length_tabColumns,
          byteLength, RawLine.size, RawLine.all, endGlyph?, Nat.add_assoc]
      · next htab =>
        rw [ih]
        simp [*, glyphsAt, linesAt, byteLength, RawLine.size, RawLine.all, endGlyph?,
          Nat.add_assoc]
    · exact hne

/-- The character that a text may start with to tell its encoding. -/
def byteOrderMark : Char := '\uFEFF'

/-- The place of the first line of a text: behind the byte order mark if there is one. -/
def startOfText (s : List Char) : Nat := if s.head? = some byteOrderMark then 3 else 0

/-- A text without the byte order mark that it may start with. -/
def dropMark (s : List Char) : List Char := if s.head? = some byteOrderMark then s.tail else s

/-- The lines that the reader sees, whatever stands around their glyphs. -/
theorem map_shift_ofText (s : List Char) :
    (Line.ofText s).map (Line.shift 0) = linesAt (startOfText s) (rawLines (dropMark s)) := by
  unfold startOfText dropMark
  by_cases hmark : s.head? = some byteOrderMark
  · obtain ⟨rest, rfl⟩ := List.head?_eq_some_iff.mp hmark
    rw [if_pos hmark, if_pos hmark]
    exact map_shift_fresh (map_shift_read _) 3 none
  · rw [if_neg hmark, if_neg hmark, Line.ofText]
    · exact map_shift_fresh (map_shift_read _) 0 none
    · rintro rest rfl
      exact hmark rfl

theorem stopOf_append (place : Nat) (gs hs : List Glyph) :
    Glyph.stopOf place (gs ++ hs) = Glyph.stopOf (Glyph.stopOf place gs) hs := by
  unfold Glyph.stopOf
  rw [List.getLast?_append]
  cases hs.getLast? <;> rfl

theorem stopOf_tabColumns (place column : Nat) (before after : Option Char) :
    Glyph.stopOf place (Line.tabColumns place column before after) = place + 1 := by
  have hwidth : 0 < Glyph.tabWidth - column % Glyph.tabWidth :=
    Nat.sub_pos_of_lt (Nat.mod_lt column (by decide))
  obtain ⟨w, hw⟩ : ∃ w, Glyph.tabWidth - column % Glyph.tabWidth = w + 1 :=
    ⟨Glyph.tabWidth - column % Glyph.tabWidth - 1, by omega⟩
  simp only [Line.tabColumns, hw, List.range_succ, List.map_append, stopOf_append]
  by_cases hzero : w = 0
  · simp [Glyph.stopOf, hzero]
  · simp [Glyph.stopOf, hzero]

/-- The glyphs of a text end with it. -/
theorem stopOf_glyphsAt (place column : Nat) (text : List Char) :
    Glyph.stopOf place (glyphsAt place column text) = place + byteLength text := by
  induction text generalizing place column with
  | nil => rfl
  | cons c rest ih =>
    rw [glyphsAt, byteLength]
    split
    · next htab =>
      have hsize : c.utf8Size = 1 := by rw [htab]; rfl
      rw [stopOf_append, stopOf_tabColumns, ih, hsize, Nat.add_assoc]
    · rw [← List.singleton_append, stopOf_append, ← Nat.add_assoc]
      exact ih _ _

theorem stop_lineAt (place : Nat) (r : RawLine) :
    (r.lineAt place).stop = place + byteLength r.text :=
  stopOf_glyphsAt place 0 r.text

theorem next_lineAt (place : Nat) (r : RawLine) : (r.lineAt place).next = place + r.size := by
  rw [Line.next, stop_lineAt, RawLine.size, RawLine.all, byteLength_append, ← Nat.add_assoc]
  unfold RawLine.lineAt endGlyph?
  dsimp only
  split
  · next h =>
    split at h
    · cases h
    · cases h
      rfl
  · next h =>
    split at h
    · next hnil => rw [hnil]; rfl
    · cases h

/-! ## Lines of a reader that show raw lines -/

/-- A line of glyphs that start where it does. -/
def Line.Placed (l : Line) : Prop := l.cutTo l.glyphs = l

/-- A line of a reader is the raw line at a place, whatever stands around its glyphs. -/
def Line.Shows (place : Nat) (r : RawLine) (l : Line) : Prop := l.shift 0 = r.lineAt place

theorem head?_glyphsAt (place column : Nat) (text : List Char) :
    (glyphsAt place column text).head?.map (·.char) = text.head? := by
  cases text with
  | nil => rfl
  | cons c rest =>
    rw [glyphsAt]
    split
    · next htab =>
      rw [htab]
      obtain ⟨w, hw⟩ : ∃ w, Glyph.tabWidth - column % Glyph.tabWidth = w + 1 :=
        ⟨Glyph.tabWidth - column % Glyph.tabWidth - 1, by
          have := Nat.mod_lt column (show Glyph.tabWidth > 0 by decide)
          omega⟩
      simp [Line.tabColumns, hw, List.range_succ_eq_map]
    · rfl

theorem startOf_glyphsAt (place column : Nat) {text : List Char} (hne : text ≠ []) (n : Nat) :
    Glyph.startOf n (glyphsAt place column text) = place := by
  cases text with
  | nil => exact absurd rfl hne
  | cons c rest =>
    rw [glyphsAt]
    split
    · obtain ⟨w, hw⟩ : ∃ w, Glyph.tabWidth - column % Glyph.tabWidth = w + 1 :=
        ⟨Glyph.tabWidth - column % Glyph.tabWidth - 1, by
          have := Nat.mod_lt column (show Glyph.tabWidth > 0 by decide)
          omega⟩
      simp [Line.tabColumns, hw, List.range_succ_eq_map, Glyph.startOf]
    · rfl

namespace Line.Shows

variable {place : Nat} {r : RawLine} {l : Line}

theorem lineAt (place : Nat) (r : RawLine) : Line.Shows place r (r.lineAt place) := by
  have hshift := lineAt_shift 0 place r
  rw [Nat.add_zero] at hshift
  exact hshift.symm

theorem start (h : Line.Shows place r l) : l.start = place := congrArg Line.start h

theorem stop (h : Line.Shows place r l) : l.stop = place + byteLength r.text := by
  rw [← stop_lineAt, ← h, Line.stop_shift, Nat.add_zero]

theorem next (h : Line.Shows place r l) : l.next = place + r.size := by
  rw [← next_lineAt, ← h, Line.next_shift, Nat.add_zero]

theorem glyphs (h : Line.Shows place r l) : shifted 0 l.glyphs = glyphsAt place 0 r.text :=
  congrArg Line.glyphs h

/-- The glyphs are those that the text has at the start of a text. -/
theorem glyphs_eq (h : Line.Shows place r l) :
    shifted 0 l.glyphs = shifted place (glyphsAt 0 0 r.text) := by
  rw [h.glyphs, ← glyphsAt_shift, Nat.zero_add]

theorem shift_eq (h : Line.Shows place r l) {d first : Nat} (hplace : place = first + d) :
    l.shift 0 = (r.lineAt first).shift d := by
  rw [h, hplace, lineAt_shift]

theorem head? (h : Line.Shows place r l) : l.glyphs.head?.map (·.char) = r.text.head? := by
  rw [← head?_glyphsAt place 0, ← h.glyphs, head?_shifted, Option.map_map]
  rfl

theorem placed (h : Line.Shows place r l) : l.Placed := by
  have hstart : Glyph.startOf l.stop l.glyphs = l.start := by
    have hshift := Glyph.startOf_shifted 0 l.stop l.glyphs
    rw [Nat.add_zero, Nat.add_zero, h.glyphs] at hshift
    rw [← hshift, h.start]
    by_cases hnil : r.text = []
    · rw [hnil]
      show l.stop = place
      rw [h.stop, hnil]
      rfl
    · exact startOf_glyphsAt place 0 hnil _
  rw [Line.Placed, Line.cutTo, hstart]

end Line.Shows

/-- Lines of a reader are raw lines, from a place on. -/
def Shows (place : Nat) (rs : List RawLine) (lines : List Line) : Prop :=
  lines.map (Line.shift 0) = linesAt place rs

namespace Shows

variable {place : Nat} {rs : List RawLine} {lines : List Line}

theorem linesAt (place : Nat) (rs : List RawLine) : Shows place rs (linesAt place rs) := by
  have hshift := linesAt_shift 0 place rs
  rw [Nat.add_zero] at hshift
  exact hshift.symm

theorem nil_iff (h : Shows place rs lines) : lines = [] ↔ rs = [] := by
  unfold Shows at h
  cases rs with
  | nil => simpa [Markdown.linesAt] using h
  | cons r more =>
    cases lines with
    | nil => cases h
    | cons l rest => simp

/-- The first line, and the lines behind it. -/
theorem cons_iff {l : Line} {rest : List Line} :
    Shows place rs (l :: rest) ↔
      ∃ r more, rs = r :: more ∧ l.Shows place r ∧ Shows (place + r.size) more rest := by
  unfold Shows
  constructor
  · intro h
    cases rs with
    | nil => cases h
    | cons r more =>
      obtain ⟨hl, hrest⟩ := List.cons.inj h
      exact ⟨r, more, rfl, hl, hrest⟩
  · rintro ⟨r, more, rfl, hl, hrest⟩
    rw [List.map_cons, hrest, Markdown.linesAt]
    exact congrArg (· :: _) hl

/-- Lines fall into parts as their raw lines do. -/
theorem append_iff {front back : List Line} :
    Shows place rs (front ++ back) ↔
      ∃ ps qs, rs = ps ++ qs ∧ Shows place ps front ∧
        Shows (place + byteLength (flat ps)) qs back := by
  induction front generalizing place rs with
  | nil =>
    constructor
    · intro h
      exact ⟨[], rs, rfl, rfl, h⟩
    · rintro ⟨ps, qs, rfl, hps, hqs⟩
      obtain rfl : ps = [] := hps.nil_iff.mp rfl
      exact hqs
  | cons l rest ih =>
    rw [List.cons_append, cons_iff]
    constructor
    · rintro ⟨r, more, rfl, hl, hrest⟩
      obtain ⟨ps, qs, rfl, hps, hqs⟩ := ih.mp hrest
      refine ⟨r :: ps, qs, rfl, cons_iff.mpr ⟨r, ps, rfl, hl, hps⟩, ?_⟩
      rw [flat_cons, byteLength_append, ← Nat.add_assoc]
      exact hqs
    · rintro ⟨ps, qs, rfl, hps, hqs⟩
      obtain ⟨r, more, rfl, hl, hmore⟩ := cons_iff.mp hps
      refine ⟨r, more ++ qs, rfl, hl, ih.mpr ⟨more, qs, rfl, hmore, ?_⟩⟩
      rw [flat_cons, byteLength_append, ← Nat.add_assoc] at hqs
      exact hqs

theorem append_singleton_iff {front : List Line} {l : Line} :
    Shows place rs (front ++ [l]) ↔
      ∃ ps r, rs = ps ++ [r] ∧ Shows place ps front ∧
        l.Shows (place + byteLength (flat ps)) r := by
  rw [append_iff]
  constructor
  · rintro ⟨ps, qs, rfl, hps, hqs⟩
    obtain ⟨r, more, rfl, hl, hmore⟩ := cons_iff.mp hqs
    obtain rfl : more = [] := hmore.nil_iff.mp rfl
    exact ⟨ps, r, rfl, hps, hl⟩
  · rintro ⟨ps, r, rfl, hps, hl⟩
    exact ⟨ps, [r], rfl, hps, cons_iff.mpr ⟨r, [], rfl, hl, rfl⟩⟩

/-- Every line shows one of the raw lines. -/
theorem exists_of_mem (h : Shows place rs lines) {l : Line} (hl : l ∈ lines) :
    ∃ r ∈ rs, ∃ place', l.Shows place' r := by
  induction lines generalizing place rs with
  | nil => cases hl
  | cons k rest ih =>
    obtain ⟨r, more, rfl, hk, hrest⟩ := cons_iff.mp h
    rcases List.mem_cons.mp hl with rfl | hl
    · exact ⟨r, List.mem_cons_self, place, hk⟩
    · obtain ⟨s, hs, hshown⟩ := ih hrest hl
      exact ⟨s, List.mem_cons_of_mem r hs, hshown⟩

theorem placed (h : Shows place rs lines) : ∀ l ∈ lines, l.Placed := by
  intro l hl
  obtain ⟨r, _, _, hshown⟩ := h.exists_of_mem hl
  exact hshown.placed

end Shows

end LiveDoc.Markdown
