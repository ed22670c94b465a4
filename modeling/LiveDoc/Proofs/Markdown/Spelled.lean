import LiveDoc.Markdown.Document
import LiveDoc.Proofs.Markdown.RawLine

/-!
# Texts as glyphs

A text is read as the same glyphs wherever it stands, but for the columns of its tabs. Rules that
take spaces and the columns of tabs alike do not see them: what glyphs mean depends on their text
alone (`Spelled.decodedText_eq`).
-/

namespace LiveDoc.Markdown

/-- Glyphs that a text is read as, wherever it stands. -/
inductive Spelled : List Char → List Glyph → Prop
  | nil : Spelled [] []
  | char {c : Char} {t : List Char} {g : Glyph} {gs : List Glyph} : c ≠ '\t' → g.char = c →
      g.source = [c] → Spelled t gs → Spelled (c :: t) (g :: gs)
  /-- A tab has columns behind its first one, which stand for nothing. -/
  | tab {t : List Char} {g : Glyph} {columns gs : List Glyph} : g.char = '\t' → g.source = ['\t'] →
      (∀ k ∈ columns, k.char = ' ' ∧ k.source = []) → Spelled t gs →
      Spelled ('\t' :: t) (g :: (columns ++ gs))

theorem exists_tabColumns (place column : Nat) :
    ∃ g columns, Line.tabColumns place column none none = g :: columns ∧ g.char = '\t' ∧
      g.source = ['\t'] ∧ ∀ k ∈ columns, k.char = ' ' ∧ k.source = [] := by
  obtain ⟨w, hw⟩ : ∃ w, Glyph.tabWidth - column % Glyph.tabWidth = w + 1 :=
    ⟨Glyph.tabWidth - column % Glyph.tabWidth - 1, by
      have := Nat.mod_lt column (show Glyph.tabWidth > 0 by decide)
      omega⟩
  rw [Line.tabColumns, hw, List.range_succ_eq_map, List.map_cons]
  refine ⟨_, _, rfl, rfl, rfl, ?_⟩
  intro k hk
  obtain ⟨i, hi, rfl⟩ := List.mem_map.mp hk
  obtain ⟨j, -, rfl⟩ := List.mem_map.mp hi
  exact ⟨rfl, rfl⟩

theorem spelled_glyphsAt (place column : Nat) (t : List Char) :
    Spelled t (glyphsAt place column t) := by
  induction t generalizing place column with
  | nil => exact .nil
  | cons c rest ih =>
    rw [glyphsAt]
    split
    · next hc =>
      obtain ⟨g, columns, hcolumns, hg, hsource, hall⟩ := exists_tabColumns place column
      rw [hc, hcolumns, List.cons_append]
      exact .tab hg hsource hall (ih _ _)
    · next hc => exact .char hc rfl rfl (ih _ _)

namespace Spelled

variable {c : Char} {t : List Char} {g : Glyph} {gs gs' : List Glyph} {p : Char → Bool}

theorem head?_char (h : Spelled t gs) : gs.head?.map (·.char) = t.head? := by
  cases h with
  | nil => rfl
  | char _ hg => exact congrArg some hg
  | tab hg => exact congrArg some hg

theorem isEmpty (h : Spelled t gs) : gs.isEmpty = t.isEmpty := by
  cases h <;> rfl

theorem all_columns {columns : List Glyph} (h : ∀ k ∈ columns, k.char = ' ' ∧ k.source = [])
    (p : Char → Bool) : ∀ k ∈ columns, p k.char = p ' ' := fun k hk => by rw [(h k hk).1]

/-- A run of characters of a kind that holds spaces and tabs or neither is a run of glyphs. -/
theorem span (h : Spelled t gs) (hp : p '\t' = p ' ') :
    Spelled (t.takeWhile p) (gs.takeWhile fun g => p g.char) ∧
      Spelled (t.dropWhile p) (gs.dropWhile fun g => p g.char) := by
  induction h with
  | nil => exact ⟨.nil, .nil⟩
  | @char c t g gs hc hg hsource h ih =>
    rw [List.takeWhile_cons, List.dropWhile_cons, List.takeWhile_cons, List.dropWhile_cons, hg]
    split
    · exact ⟨.char hc hg hsource ih.1, ih.2⟩
    · exact ⟨.nil, .char hc hg hsource h⟩
  | @tab t g columns gs hg hsource hall h ih =>
    have hcolumns := all_columns hall p
    cases htab : p '\t' with
    | true =>
      have hpos : ∀ k ∈ columns, p k.char = true := fun k hk => by
        rw [hcolumns k hk, ← hp, htab]
      rw [List.takeWhile_cons_of_pos htab, List.dropWhile_cons_of_pos htab,
        List.takeWhile_cons_of_pos (by rw [hg, htab]),
          List.dropWhile_cons_of_pos (by rw [hg, htab]),
        List.takeWhile_append_of_pos hpos, List.dropWhile_append_of_pos hpos]
      exact ⟨.tab hg hsource hall ih.1, ih.2⟩
    | false =>
      have hneg : ¬ p '\t' = true := by simp [htab]
      rw [List.takeWhile_cons_of_neg hneg, List.dropWhile_cons_of_neg hneg,
        List.takeWhile_cons_of_neg (by rw [hg, htab]; simp),
        List.dropWhile_cons_of_neg (by rw [hg, htab]; simp)]
      exact ⟨.nil, .tab hg hsource hall h⟩

theorem all_eq (h : Spelled t gs) (hp : p '\t' = p ' ') : (gs.all fun g => p g.char) = t.all p := by
  induction h with
  | nil => rfl
  | char _ hg _ _ ih => rw [List.all_cons, List.all_cons, hg, ih]
  | @tab t g columns gs hg _ hall _ ih =>
    rw [List.all_cons, List.all_cons, List.all_append, hg, ih]
    cases htab : p '\t' with
    | false => rfl
    | true =>
      have hcolumns : (columns.all fun g => p g.char) = true :=
        List.all_eq_true.mpr fun k hk => by rw [all_columns hall p k hk, ← hp, htab]
      rw [hcolumns, Bool.true_and]

theorem exists_mem (h : Spelled t gs) (hc : c ∈ t) : ∃ g ∈ gs, g.char = c := by
  induction h with
  | nil => cases hc
  | char _ hg _ _ ih =>
    rcases List.mem_cons.mp hc with rfl | hc
    · exact ⟨_, List.mem_cons_self, hg⟩
    · obtain ⟨g, hmem, hg⟩ := ih hc
      exact ⟨g, List.mem_cons_of_mem _ hmem, hg⟩
  | tab hg _ _ _ ih =>
    rcases List.mem_cons.mp hc with rfl | hc
    · exact ⟨_, List.mem_cons_self, hg⟩
    · obtain ⟨g, hmem, hg⟩ := ih hc
      exact ⟨g, List.mem_cons_of_mem _ (List.mem_append_right _ hmem), hg⟩

/-- Where there is no tab, every character is one glyph. -/
theorem map_char (h : Spelled t gs) (htab : '\t' ∉ t) : gs.map (·.char) = t := by
  induction h with
  | nil => rfl
  | char _ hg _ _ ih => rw [List.map_cons, hg, ih fun hmem => htab (List.mem_cons_of_mem _ hmem)]
  | tab => exact absurd List.mem_cons_self htab

/-- The characters of a run of a kind that holds no blanks. -/
theorem map_takeWhile (h : Spelled t gs) (hspace : p ' ' = false) (htab : p '\t' = false) :
    (gs.takeWhile fun g => p g.char).map (·.char) = t.takeWhile p := by
  refine (h.span (htab.trans hspace.symm)).1.map_char fun hmem => ?_
  have hp := List.all_eq_true.mp List.all_takeWhile _ hmem
  rw [htab] at hp
  cases hp

end Spelled

/-! ## What glyphs mean -/

namespace Escape

variable {t : List Char} {gs gs' : List Glyph}

/-- Two readings of a text that go on alike: both find the same at its start, or nothing. -/
inductive Agree (n : Nat) : Option (List Char × List Glyph) → Option (List Char × List Glyph) → Prop
  | none : Agree n none none
  | some {found t : List Char} {rest rest' : List Glyph} : Spelled t rest → Spelled t rest' →
      t.length < n → Agree n (some (found, rest)) (some (found, rest'))

namespace Agree

variable {n m : Nat} {r r' : Option (List Char × List Glyph)}

theorem mono (h : Agree n r r') (hle : n ≤ m) : Agree m r r' := by
  cases h with
  | none => exact .none
  | some h h' hlt => exact .some h h' (Nat.lt_of_lt_of_le hlt hle)

theorem bind (h : Agree n r r') (f : List Char → Option (List Char)) :
    Agree n (r.bind fun x => (f x.1).map fun v => (v, x.2))
      (r'.bind fun x => (f x.1).map fun v => (v, x.2)) := by
  cases h with
  | none => exact .none
  | @some found _ _ _ h h' hlt =>
    dsimp only [Option.bind_some]
    cases f found with
    | none => exact .none
    | some v => exact .some h h' hlt

theorem map (h : Agree n r r') (f : List Char → List Char) :
    Agree n (r.map fun x => (f x.1, x.2)) (r'.map fun x => (f x.1, x.2)) := by
  cases h with
  | none => exact .none
  | some h h' hlt => exact .some h h' hlt

end Agree

theorem escape?_eq_none {g : Glyph} (h : g.char ≠ '\\') (gs : List Glyph) :
    escape? (g :: gs) = none := by
  cases gs with
  | nil => rfl
  | cons f rest => simp [escape?, h]

theorem reference?_eq_none {g : Glyph} (h : g.char ≠ '&') (gs : List Glyph) :
    reference? (g :: gs) = none := by
  cases gs with
  | nil => rfl
  | cons f rest => simp [reference?, h]

theorem agree_escape? (h : Spelled t gs) (h' : Spelled t gs') :
    Agree t.length ((escape? gs).map fun r => ([r.1.char], r.2))
      ((escape? gs').map fun r => ([r.1.char], r.2)) := by
  cases h with
  | nil => cases h'; exact .none
  | tab hg =>
    cases h' with
    | char hc => exact absurd rfl hc
    | tab hg' =>
      rw [escape?_eq_none (by rw [hg]; decide), escape?_eq_none (by rw [hg']; decide)]
      exact .none
  | @char c t g gs hc hg _ h =>
    cases h' with
    | tab => exact absurd rfl hc
    | @char _ _ g' gs' _ hg' _ h' =>
      cases h with
      | nil => cases h'; exact .none
      | tab hk =>
        cases h' with
        | char hd => exact absurd rfl hd
        | tab hk' =>
          have htab : Text.isAsciiPunctuation '\t' = false := by decide
          simp only [escape?, hk, hk', htab, Bool.and_false]
          exact .none
      | char hd hk _ h =>
        cases h' with
        | tab => exact absurd rfl hd
        | char _ hk' _ h' =>
          simp only [escape?, hg, hg', hk, hk']
          split
          · simp only [Option.map_some, hk, hk']
            exact .some h h' (by simp only [List.length_cons]; omega)
          · exact .none

theorem agree_terminated? (h : Spelled t gs) (h' : Spelled t gs') {p : Char → Bool}
    (hspace : p ' ' = false) (htab : p '\t' = false) (max : Nat) :
    Agree t.length (terminated? p max gs) (terminated? p max gs') := by
  obtain ⟨-, hrest⟩ := h.span (htab.trans hspace.symm)
  obtain ⟨-, hrest'⟩ := h'.span (htab.trans hspace.symm)
  have hname := h.map_takeWhile hspace htab
  have hname' := h'.map_takeWhile hspace htab
  have hlength := (List.dropWhile_suffix (l := t) p).length_le
  have hlen : (gs.takeWhile fun g => p g.char).length = (t.takeWhile p).length := by
    rw [← hname, List.length_map]
  have hlen' : (gs'.takeWhile fun g => p g.char).length = (t.takeWhile p).length := by
    rw [← hname', List.length_map]
  have hne : ∀ {gs : List Glyph}, gs.length = (t.takeWhile p).length →
    (gs ≠ []) = (t.takeWhile p ≠ []) := by
    intro gs hgs
    rw [← List.length_pos_iff, ← List.length_pos_iff, hgs]
  simp only [terminated?, hne hlen, hne hlen', hlen, hlen', hname, hname']
  generalize gs.dropWhile (fun g => p g.char) = rest at hrest
  generalize gs'.dropWhile (fun g => p g.char) = rest' at hrest'
  generalize t.dropWhile p = u at hrest hrest' hlength
  cases hrest with
  | nil => cases hrest'; exact .none
  | @char c u g gs hc hg hsource hu =>
    cases hrest' with
    | @char _ _ g' gs' _ hg' _ hu' =>
      dsimp only
      rw [hg, hg']
      split
      · exact .some hu hu' hlength
      · exact .none
    | tab => exact absurd rfl hc
  | tab hg _ _ hu =>
    cases hrest' with
    | char hc => exact absurd rfl hc
    | tab hg' =>
      dsimp only
      rw [hg, hg']
      exact .none

theorem agree_named? (h : Spelled t gs) (h' : Spelled t gs') :
    Agree t.length (named? gs) (named? gs') :=
  (agree_terminated? h h' (by decide) (by decide) 31).bind Entity.characters?

theorem agree_numbered? (h : Spelled t gs) (h' : Spelled t gs') :
    Agree t.length (numbered? gs) (numbered? gs') := by
  have hdecimal :=
    (agree_terminated? h h' (p := Char.isDigit) (by decide) (by decide) 7).map fun digits =>
    [numbered (digits.foldl (fun n d => 10 * n + digitValue d) 0)]
  cases h with
  | nil => cases h'; exact .none
  | tab hg =>
    cases h' with
    | char hc => exact absurd rfl hc
    | tab hg' =>
      simp only [numbered?, hg, hg']
      exact hdecimal
  | @char c t g gs hc hg _ h =>
    cases h' with
    | tab => exact absurd rfl hc
    | @char _ _ g' gs' _ hg' _ h' =>
      simp only [numbered?, hg, hg']
      split
      · have hhex :=
          (agree_terminated? h h' (p := isHexDigit) (by decide) (by decide) 6).map fun digits =>
          [numbered (digits.foldl (fun n d => 16 * n + digitValue d) 0)]
        exact hhex.mono (Nat.le_succ _)
      · exact hdecimal

theorem agree_reference? (h : Spelled t gs) (h' : Spelled t gs') :
    Agree t.length (reference? gs) (reference? gs') := by
  cases h with
  | nil => cases h'; exact .none
  | tab hg =>
    cases h' with
    | char hc => exact absurd rfl hc
    | tab hg' =>
      rw [reference?_eq_none (by rw [hg]; decide), reference?_eq_none (by rw [hg']; decide)]
      exact .none
  | @char c t g gs hc hg _ h =>
    cases h' with
    | tab => exact absurd rfl hc
    | @char _ _ g' gs' _ hg' _ h' =>
      have hnamed := agree_named? h h'
      cases h with
      | nil => cases h'; exact .none
      | tab hk =>
        cases h' with
        | char hd => exact absurd rfl hd
        | tab hk' =>
          simp only [reference?, hg, hg', hk, hk']
          split
          · exact .none
          · exact hnamed.mono (Nat.le_succ _)
      | char hd hk _ h =>
        cases h' with
        | tab => exact absurd rfl hd
        | char _ hk' _ h' =>
          simp only [reference?, hg, hg', hk, hk']
          split
          · exact .none
          · split
            · exact (agree_numbered? h h').mono (Nat.le_add_right _ 2)
            · exact hnamed.mono (Nat.le_succ _)

/-! ## The text that is meant -/

theorem length_lt_of_escape? {e : Glyph} {rest : List Glyph} (h : escape? gs = some (e, rest)) :
    rest.length < gs.length := by
  match gs, h with
  | b :: g :: more, h =>
    rw [escape?] at h
    split at h
    · cases h
      simp only [List.length_cons]
      omega
    · cases h

theorem length_lt_of_terminated? {p : Char → Bool} {max : Nat} {v : List Char} {rest : List Glyph}
    (h : terminated? p max gs = some (v, rest)) : rest.length < gs.length := by
  have hle := (List.dropWhile_suffix (l := gs) fun g => p g.char).length_le
  unfold terminated? at h
  dsimp only at h
  split at h
  · next g more hdrop =>
    rw [hdrop, List.length_cons] at hle
    split at h
    · cases h
      omega
    · cases h
  · cases h

theorem length_lt_of_reference? {v : List Char} {rest : List Glyph}
    (h : reference? gs = some (v, rest)) :
    rest.length < gs.length := by
  match gs, h with
  | a :: k :: more, h =>
    rw [reference?] at h
    simp only [List.length_cons]
    split at h
    · cases h
    · split at h
      · unfold numbered? at h
        split at h
        · split at h
          · obtain ⟨⟨digits, left⟩, hdigits, heq⟩ := Option.map_eq_some_iff.mp h
            cases heq
            have hlt := length_lt_of_terminated? hdigits
            simp only [List.length_cons]
            omega
          · obtain ⟨⟨digits, left⟩, hdigits, heq⟩ := Option.map_eq_some_iff.mp h
            cases heq
            have hlt := length_lt_of_terminated? hdigits
            omega
        · cases h
      · obtain ⟨⟨name, left⟩, hname, hvalue⟩ := Option.bind_eq_some_iff.mp h
        obtain ⟨value, -, heq⟩ := Option.map_eq_some_iff.mp hvalue
        cases heq
        have hlt := length_lt_of_terminated? hname
        rw [List.length_cons] at hlt
        omega

/-- The columns of a tab behind its first one mean nothing. -/
theorem decodedFrom_columns {columns : List Glyph} (h : ∀ k ∈ columns, k.char = ' ' ∧ k.source = [])
    (n : Nat) (gs : List Glyph) :
    decodedFrom (columns.length + n) (columns ++ gs) = decodedFrom n gs := by
  induction columns with
  | nil => rw [List.length_nil, Nat.zero_add, List.nil_append]
  | cons k rest ih =>
    obtain ⟨hchar, hsource⟩ := h k List.mem_cons_self
    rw [List.length_cons, Nat.add_right_comm, List.cons_append, decodedFrom,
      escape?_eq_none (by rw [hchar]; decide), reference?_eq_none (by rw [hchar]; decide), hsource]
    exact ih fun k hk => h k (List.mem_cons_of_mem _ hk)

/-- What an escape or a reference at the start of a run means, and what follows it. -/
def found? (gs : List Glyph) : Option (List Char × List Glyph) :=
  ((escape? gs).map fun r => ([r.1.char], r.2)).or (reference? gs)

theorem decodedFrom_cons (n : Nat) (g : Glyph) (rest : List Glyph) :
    decodedFrom (n + 1) (g :: rest) = match found? (g :: rest) with
      | some (v, left) => v ++ decodedFrom n left
      | none => g.source ++ decodedFrom n rest := by
  rw [decodedFrom, found?]
  cases escape? (g :: rest) with
  | some r => rfl
  | none => cases reference? (g :: rest) <;> rfl

theorem agree_found? (h : Spelled t gs) (h' : Spelled t gs') :
    Agree t.length (found? gs) (found? gs') := by
  have hescape := agree_escape? h h'
  unfold found?
  cases hr : (escape? gs).map fun r => ([r.1.char], r.2) with
  | none =>
    cases hr' : (escape? gs').map fun r => ([r.1.char], r.2) with
    | none => exact agree_reference? h h'
    | some r' => rw [hr, hr'] at hescape; cases hescape
  | some r =>
    cases hr' : (escape? gs').map fun r => ([r.1.char], r.2) with
    | none => rw [hr, hr'] at hescape; cases hescape
    | some r' => rw [hr, hr'] at hescape; exact hescape

theorem length_lt_of_found? {v : List Char} {rest : List Glyph} (h : found? gs = some (v, rest)) :
    rest.length < gs.length := by
  rcases Option.or_eq_some_iff.mp h with h | ⟨-, h⟩
  · obtain ⟨r, hr, heq⟩ := Option.map_eq_some_iff.mp h
    cases heq
    exact length_lt_of_escape? hr
  · exact length_lt_of_reference? h

theorem decodedFrom_nil (n : Nat) : decodedFrom n [] = [] := by
  cases n <;> rfl

/-- Two readings that agree at their start mean the same if they do where they go on. -/
theorem decodedFrom_cons_eq {k n m : Nat} {g g' : Glyph} {rest rest' : List Glyph}
    (hfound : Agree k (found? (g :: rest)) (found? (g' :: rest'))) (hn : rest.length ≤ n)
    (hm : rest'.length ≤ m)
    (hbehind : ∀ (u : List Char) (us us' : List Glyph), u.length < k → Spelled u us →
    Spelled u us' →
      us.length ≤ n → us'.length ≤ m → decodedFrom n us = decodedFrom m us')
    (hnone : g.source ++ decodedFrom n rest = g'.source ++ decodedFrom m rest') :
    decodedFrom (n + 1) (g :: rest) = decodedFrom (m + 1) (g' :: rest') := by
  rw [decodedFrom_cons, decodedFrom_cons]
  cases hr : found? (g :: rest) with
  | none =>
    cases hr' : found? (g' :: rest') with
    | none => exact hnone
    | some r' => rw [hr, hr'] at hfound; cases hfound
  | some r =>
    cases hr' : found? (g' :: rest') with
    | none => rw [hr, hr'] at hfound; cases hfound
    | some r' =>
      rw [hr, hr'] at hfound
      cases hfound with
      | some h h' hlt =>
        have hlength := length_lt_of_found? hr
        have hlength' := length_lt_of_found? hr'
        rw [List.length_cons] at hlength hlength'
        dsimp only
        rw [hbehind _ _ _ hlt h h' (by omega) (by omega)]

/-- What glyphs mean depends on their text alone. -/
theorem decodedFrom_eq (h : Spelled t gs) (h' : Spelled t gs') {n m : Nat} (hn : gs.length ≤ n)
    (hm : gs'.length ≤ m) : decodedFrom n gs = decodedFrom m gs' := by
  -- a rule that finds something goes on behind it, where less text is left
  induction hlen : t.length using Nat.strongRecOn generalizing t gs gs' n m with
  | ind k ih =>
  subst hlen
  have hfound := agree_found? h h'
  cases h with
  | nil =>
    cases h'
    rw [decodedFrom_nil, decodedFrom_nil]
  | @char c t g gs hc hg hsource h =>
    cases h' with
    | tab => exact absurd rfl hc
    | @char _ _ g' gs' _ hg' hsource' h' =>
      obtain ⟨n, rfl⟩ := Nat.exists_eq_add_of_le' (Nat.le_trans (Nat.le_add_left 1 _) hn)
      obtain ⟨m, rfl⟩ := Nat.exists_eq_add_of_le' (Nat.le_trans (Nat.le_add_left 1 _) hm)
      have hn := Nat.le_of_succ_le_succ hn
      have hm := Nat.le_of_succ_le_succ hm
      refine decodedFrom_cons_eq hfound hn hm
        (fun u us us' hlt hu hu' hn hm => ih _ hlt hu hu' hn hm rfl) ?_
      rw [hsource, hsource', ih _ (Nat.lt_succ_self _) h h' hn hm rfl]
  | @tab t g columns gs hg hsource hall h =>
    cases h' with
    | char hc => exact absurd rfl hc
    | @tab _ g' columns' gs' hg' hsource' hall' h' =>
      rw [List.length_cons, List.length_append] at hn hm
      obtain ⟨i, rfl⟩ : ∃ i, n = columns.length + i + 1 := ⟨n - columns.length - 1, by omega⟩
      obtain ⟨j, rfl⟩ : ∃ j, m = columns'.length + j + 1 := ⟨m - columns'.length - 1, by omega⟩
      refine decodedFrom_cons_eq hfound (by rw [List.length_append]; omega)
        (by rw [List.length_append]; omega)
        (fun u us us' hlt hu hu' hn hm => ih _ hlt hu hu' hn hm rfl) ?_
      have hrest : decodedFrom i gs = decodedFrom j gs' :=
        ih _ (Nat.lt_succ_self _) h h' (by omega) (by omega) rfl
      rw [hsource, hsource', decodedFrom_columns hall, decodedFrom_columns hall', hrest]

end Escape

theorem Spelled.decodedText_eq {t : List Char} {gs gs' : List Glyph} (h : Spelled t gs)
    (h' : Spelled t gs') :
    decodedText gs = decodedText gs' :=
  congrArg String.ofList (Escape.decodedFrom_eq h h' (Nat.le_refl _) (Nat.le_refl _))

end LiveDoc.Markdown
