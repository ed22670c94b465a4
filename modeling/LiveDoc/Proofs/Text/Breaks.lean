import LiveDoc.Markdown.Glyph
import LiveDoc.Text.Lines

/-!
# Lines between any line ends

Markdown ends a line at a line feed, at a carriage return, and at both together. `breakLines` reads
a text so, while `Text.lines` and `Text.split` look at line feeds alone.

* `sources_ofText` — these are the lines that the Markdown reader sees;
* `breakLines_append_ended` — behind a line feed the reading starts anew;
* `breakLines_ended` — a piece without line feeds that is ended by one is cut at its carriage
  returns, up to empty lines.
-/

namespace LiveDoc.Text

/-- The lines of a text. Each loses its line end: a line feed, a carriage return, or both. -/
def breakLines : List Char → List (List Char)
  | [] => []
  | '\r' :: '\n' :: rest => [] :: breakLines rest
  | c :: rest =>
    if c = '\n' || c = '\r' then [] :: breakLines rest
    else
      match breakLines rest with
      | [] => [[c]]
      | line :: lines => (c :: line) :: lines

/-- Whether a character is neither a line feed nor a carriage return. -/
def isUnbroken (c : Char) : Prop := c ≠ '\n' ∧ c ≠ '\r'

@[simp] theorem breakLines_nil : breakLines [] = [] := by
  rw [breakLines]

@[simp] theorem breakLines_crlf (rest : List Char) :
    breakLines ('\r' :: '\n' :: rest) = [] :: breakLines rest := by
  rw [breakLines]

@[simp] theorem breakLines_lf (rest : List Char) :
    breakLines ('\n' :: rest) = [] :: breakLines rest := by
  rw [breakLines]
  · simp
  · simp

theorem breakLines_cr {rest : List Char} (h : rest.head? ≠ some '\n') :
    breakLines ('\r' :: rest) = [] :: breakLines rest := by
  rw [breakLines]
  · simp
  · rintro more _ rfl
    simp at h

theorem breakLines_cons {c : Char} (hc : isUnbroken c) (rest : List Char) :
    breakLines (c :: rest) =
      match breakLines rest with
      | [] => [[c]]
      | line :: lines => (c :: line) :: lines := by
  rw [breakLines]
  · simp [hc.1, hc.2]
  · intro more hcr _
    exact absurd hcr hc.2

/-- A text without line ends is one line, unless it is empty. -/
theorem breakLines_unbroken {line : List Char} (h : ∀ c ∈ line, isUnbroken c) (hne : line ≠ []) :
    breakLines line = [line] := by
  induction line with
  | nil => exact absurd rfl hne
  | cons c rest ih =>
    rw [breakLines_cons (h c List.mem_cons_self)]
    cases rest with
    | nil => simp
    | cons d more => rw [ih (fun e he => h e (List.mem_cons_of_mem c he)) (by simp)]

/-- A text without line ends in front of a line end makes one line. -/
theorem breakLines_append_lf {line : List Char} (h : ∀ c ∈ line, isUnbroken c)
    (rest : List Char) : breakLines (line ++ '\n' :: rest) = line :: breakLines rest := by
  induction line with
  | nil => simp
  | cons c more ih =>
    rw [List.cons_append, breakLines_cons (h c List.mem_cons_self),
      ih fun d hd => h d (List.mem_cons_of_mem c hd)]

/-- A text without line ends in front of a line end makes one line. -/
theorem breakLines_append_crlf {line : List Char} (h : ∀ c ∈ line, isUnbroken c)
    (rest : List Char) : breakLines (line ++ '\r' :: '\n' :: rest) = line :: breakLines rest := by
  induction line with
  | nil => simp
  | cons c more ih =>
    rw [List.cons_append, breakLines_cons (h c List.mem_cons_self),
      ih fun d hd => h d (List.mem_cons_of_mem c hd)]

/-- A text without line ends in front of a carriage return on its own makes one line. -/
theorem breakLines_append_cr {line rest : List Char} (h : ∀ c ∈ line, isUnbroken c)
    (hrest : rest.head? ≠ some '\n') :
    breakLines (line ++ '\r' :: rest) = line :: breakLines rest := by
  induction line with
  | nil => exact breakLines_cr hrest
  | cons c more ih =>
    rw [List.cons_append, breakLines_cons (h c List.mem_cons_self),
      ih fun d hd => h d (List.mem_cons_of_mem c hd)]

theorem breakLines_ne_nil {s : List Char} (h : s ≠ []) : breakLines s ≠ [] := by
  cases s with
  | nil => exact absurd rfl h
  | cons c rest =>
    by_cases hlf : c = '\n'
    · subst hlf
      simp
    · by_cases hcr : c = '\r'
      · subst hcr
        by_cases hhead : rest.head? = some '\n'
        · obtain ⟨more, rfl⟩ := List.head?_eq_some_iff.mp hhead
          simp
        · simp [breakLines_cr hhead]
      · rw [breakLines_cons ⟨hlf, hcr⟩]
        split <;> simp

/-- The two line ends that documents are written with. -/
def IsEnding (ending : List Char) : Prop := ending = ['\n'] ∨ ending = ['\r', '\n']

theorem breakLines_append_ending {line ending : List Char} (h : ∀ c ∈ line, isUnbroken c)
    (he : IsEnding ending) (rest : List Char) :
    breakLines (line ++ ending ++ rest) = line :: breakLines rest := by
  rcases he with rfl | rfl
  · simpa using breakLines_append_lf h rest
  · simpa using breakLines_append_crlf h rest

/-- Behind a line feed the reading of lines starts anew. -/
theorem breakLines_append_ended (s rest : List Char) :
    breakLines (s ++ '\n' :: rest) = breakLines (s ++ ['\n']) ++ breakLines rest := by
  induction s using breakLines.induct with
  | case1 => simp
  | case2 more ih => simp [ih]
  | case3 c more hne hc ih =>
    rcases (by simpa using hc : c = '\n' ∨ c = '\r') with rfl | rfl
    · simp [ih]
    · cases more with
      | nil => simp
      | cons d more =>
        have hd : d ≠ '\n' := by
          rintro rfl
          exact hne more rfl rfl
        have hhead : ∀ t, (d :: t).head? ≠ some '\n' := fun t => by simpa using hd
        simp only [List.cons_append] at ih ⊢
        rw [breakLines_cr (hhead _), breakLines_cr (hhead _), ih, List.cons_append]
  | case4 c more hne hc hnil ih | case5 c more hne hc line lines hcons ih =>
    have hu : isUnbroken c := by simpa [isUnbroken] using hc
    rw [List.cons_append, List.cons_append, breakLines_cons hu, breakLines_cons hu, ih]
    cases hmore : breakLines (more ++ ['\n']) with
    | nil => exact absurd hmore (breakLines_ne_nil (by simp))
    | cons first others => simp

/-- A piece without line feeds that is ended by a line end: its first line goes up to the first
carriage return, and the lines behind are those between carriage returns, up to empty ones. -/
theorem breakLines_ended {piece ending : List Char} (hp : '\n' ∉ piece) (he : IsEnding ending) :
    ∃ first behind returns, breakLines (piece ++ ending) = first :: behind ∧
      split '\r' piece = first :: returns ∧
      ∀ line, line ≠ [] → (line ∈ behind ↔ line ∈ returns) := by
  induction piece with
  | nil =>
    refine ⟨[], [], [], ?_, by simp [split], by simp⟩
    rcases he with rfl | rfl <;> simp
  | cons c rest ih =>
    have hrest : '\n' ∉ rest := fun h => hp (List.mem_cons_of_mem c h)
    obtain ⟨first, behind, returns, hbreak, hsplit, hsame⟩ := ih hrest
    by_cases hc : c = '\r'
    · subst hc
      have hsplit' : split '\r' ('\r' :: rest) = [] :: first :: returns := by
        rw [split, if_pos rfl, hsplit]
      by_cases hhead : (rest ++ ending).head? = some '\n'
      · -- the carriage return belongs to the line end
        have hnil : rest = [] := by
          cases rest with
          | nil => rfl
          | cons d more =>
            have hd : d = '\n' := by simpa using hhead
            exact absurd (hd ▸ List.mem_cons_self) hrest
        subst hnil
        have hlf : ending = ['\n'] := by
          rcases he with rfl | rfl
          · rfl
          · simp at hhead
        subst hlf
        simp only [split, List.cons.injEq] at hsplit
        obtain ⟨rfl, rfl⟩ := hsplit
        exact ⟨[], [], [[]], by simp, hsplit', by simp⟩
      · refine ⟨[], first :: behind, first :: returns, ?_, hsplit', ?_⟩
        · rw [List.cons_append, breakLines_cr hhead, hbreak]
        · intro line hline
          rw [List.mem_cons, List.mem_cons, hsame line hline]
    · have hu : isUnbroken c := ⟨fun h => hp (h ▸ List.mem_cons_self), hc⟩
      refine ⟨c :: first, behind, returns, ?_, ?_, hsame⟩
      · rw [List.cons_append, breakLines_cons hu, hbreak]
      · rw [split, if_neg hc, hsplit]

/-! ## The lines that the Markdown reader sees -/

open Markdown (Glyph Line)

/-- The characters of the source that glyphs stand for. -/
def sources (gs : List Glyph) : List Char := gs.flatMap Glyph.source

theorem sources_append (gs hs : List Glyph) : sources (gs ++ hs) = sources gs ++ sources hs :=
  List.flatMap_append

/-- All columns of a tab stand for one character. -/
theorem sources_tabColumns (place column : Nat) (before after : Option Char) :
    sources (Line.tabColumns place column before after) = ['\t'] := by
  have hwidth : 0 < Glyph.tabWidth - column % Glyph.tabWidth :=
    Nat.sub_pos_of_lt (Nat.mod_lt column (by decide))
  obtain ⟨w, hw⟩ : ∃ w, Glyph.tabWidth - column % Glyph.tabWidth = w + 1 :=
    ⟨Glyph.tabWidth - column % Glyph.tabWidth - 1, by omega⟩
  simp only [Line.tabColumns, hw, List.range_succ_eq_map, List.map_cons, List.map_map, sources,
    List.flatMap_cons, List.flatMap_map]
  simp

/-- Reading goes on from the glyphs of a line that was read in part. -/
theorem sources_read (s : List Char) : ∀ (lineStart place column : Nat) (before : Option Char)
    (glyphs : List Glyph), (∀ c ∈ sources glyphs.reverse, isUnbroken c) →
    (glyphs = [] ↔ sources glyphs.reverse = []) →
    (Line.read lineStart place column before glyphs s).map (fun l => sources l.glyphs) =
      breakLines (sources glyphs.reverse ++ s) := by
  induction s using breakLines.induct with
  | case1 =>
    intro lineStart place column before glyphs hu hnil
    rw [Line.read, List.append_nil]
    cases glyphs with
    | nil => simp [sources]
    | cons g gs =>
      rw [breakLines_unbroken hu (fun h => absurd (hnil.mpr h) (by simp))]
      simp
  | case2 rest ih =>
    intro lineStart place column before glyphs hu hnil
    rw [Line.read, breakLines_append_crlf hu, List.map_cons, ih _ _ _ _ [] (by simp [sources])
      (by simp [sources])]
    simp [sources]
  | case3 c rest hne hc ih =>
    intro lineStart place column before glyphs hu hnil
    rw [Line.read, if_pos hc, List.map_cons,
      ih _ _ _ _ [] (by simp [sources]) (by simp [sources])]
    · rcases (by simpa using hc : c = '\n' ∨ c = '\r') with rfl | rfl
      · rw [breakLines_append_lf hu]
        simp [sources]
      · rw [breakLines_append_cr hu]
        · simp [sources]
        · intro hhead
          obtain ⟨more, rfl⟩ := List.head?_eq_some_iff.mp hhead
          exact hne more rfl rfl
    · exact hne
  | case4 c rest hne hc hnil' ih | case5 c rest hne hc line lines hcons ih =>
    intro lineStart place column before glyphs hu hnil
    have hc' : isUnbroken c := by simpa [isUnbroken] using hc
    have hgoes : ∀ new : List Glyph, sources new = [c] → ∀ p q b,
        (Line.read lineStart p q b (new.reverse ++ glyphs) rest).map (fun l => sources l.glyphs) =
          breakLines (sources glyphs.reverse ++ c :: rest) := by
      intro new hnew p q b
      have hall : sources (new.reverse ++ glyphs).reverse = sources glyphs.reverse ++ [c] := by
        rw [List.reverse_append, List.reverse_reverse, sources_append, hnew]
      rw [ih, hall, List.append_assoc, List.singleton_append]
      · intro d hd
        rw [hall, List.mem_append, List.mem_singleton] at hd
        rcases hd with hd | rfl
        · exact hu d hd
        · exact hc'
      · rw [hall]
        refine ⟨?_, fun h => absurd h (by simp)⟩
        intro h
        rw [List.append_eq_nil_iff, List.reverse_eq_nil_iff] at h
        rw [h.1] at hnew
        exact absurd hnew (by simp [sources])
    rw [Line.read, if_neg hc]
    · split
      · next htab =>
        subst htab
        exact hgoes _ (sources_tabColumns _ _ _ _) _ _ _
      · exact hgoes [_] (by simp [sources]) _ _ _
    · exact hne

/-- The lines of the Markdown reader are those of `breakLines`, if the text starts with no byte
order mark. -/
theorem sources_ofText {s : List Char} (h : s.head? ≠ some '\uFEFF') :
    (Line.ofText s).map (fun l => sources l.glyphs) = breakLines s := by
  have hread := sources_read s 0 0 0 none [] (by simp [sources]) (by simp [sources])
  rw [Line.ofText]
  · simpa [sources] using hread
  · rintro rest rfl
    simp at h

end LiveDoc.Text
