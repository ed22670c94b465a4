import LiveDoc.Markdown.Document
import LiveDoc.Proofs.Markdown.LineFront

/-!
# What readers of running text leave

A reader takes something off the front of a run of glyphs, and what it leaves is a suffix of the
run. There is one lemma for each reader, up to the constructs of running text
(`suffix_of_construct?`) and the brackets (`suffix_of_target?`).
-/

namespace LiveDoc.Markdown

variable {gs rest : List Glyph}

/-- What is left of what a run of glyphs goes on with. -/
theorem suffix_cons {g : Glyph} {more : List Glyph} (h : rest <:+ more) : rest <:+ g :: more :=
  h.trans (List.suffix_cons g more)

theorem suffix_dropSpaces (gs : List Glyph) : Glyph.dropSpaces gs <:+ gs := List.dropWhile_suffix _

theorem suffix_of_skipGap? (h : skipGap? gs = some rest) : rest <:+ gs := by
  unfold skipGap? at h
  have hdrop : gs.dropWhile Glyph.isSpace <:+ gs := List.dropWhile_suffix _
  split at h
  · next g more hmore =>
    rw [hmore] at hdrop
    split at h
    · cases h
      exact (suffix_dropSpaces more).trans ((List.suffix_cons g more).trans hdrop)
    · split at h
      · cases h
        exact hdrop
      · cases h
  · split at h
    · cases h
    · cases h
      exact List.nil_suffix

theorem suffix_skipGap (gs : List Glyph) : skipGap gs <:+ gs := by
  unfold skipGap
  cases h : skipGap? gs with
  | none => exact List.suffix_rfl
  | some rest => exact suffix_of_skipGap? h

/-! ## Labels and targets -/

namespace Label

theorem suffix_of_readFrom {size : Nat} {seen escaped : Bool} {label : List Glyph}
    (h : readFrom size seen escaped gs = some (label, rest)) : rest <:+ gs := by
  induction gs generalizing size seen escaped label with
  | nil => cases h
  | cons g more ih =>
    have hmore : ∀ size seen escaped,
        (readFrom size seen escaped more).map (fun p => (g :: p.1, p.2)) = some (label, rest) →
          rest <:+ g :: more := by
      intro size seen escaped hread
      obtain ⟨⟨inner, left⟩, hinner, heq⟩ := Option.map_eq_some_iff.mp hread
      cases heq
      exact suffix_cons (ih hinner)
    rw [readFrom] at h
    split at h
    · cases h
    · split at h
      · exact hmore _ _ _ h
      · split at h
        · cases h
        · split at h
          · split at h
            · cases h
              exact List.suffix_cons g _
            · cases h
          · split at h
            · exact hmore _ _ _ h
            · exact hmore _ _ _ h

theorem suffix_of_read? {label : List Glyph} (h : read? gs = some (label, rest)) : rest <:+ gs := by
  unfold read? at h
  split at h
  · split at h
    · exact suffix_cons (suffix_of_readFrom h)
    · cases h
  · cases h

end Label

namespace Target

theorem suffix_of_enclosed? {escaped : Bool} (h : enclosed? escaped gs = some rest) :
    rest <:+ gs := by
  induction gs generalizing escaped with
  | nil => cases h
  | cons g more ih =>
    rw [enclosed?] at h
    split at h
    · exact suffix_cons (ih h)
    · split at h
      · cases h
      · split at h
        · cases h
          exact List.suffix_cons g _
        · exact suffix_cons (ih h)

theorem suffix_of_bare? {limit : Option Nat} {depth : Nat} {escaped : Bool}
    (h : bare? limit depth escaped gs = some rest) : rest <:+ gs := by
  fun_induction bare? limit depth escaped gs with
  | case1 => cases h; exact List.suffix_rfl
  | case2 => cases h
  | case4 => cases h; exact List.suffix_rfl
  | case7 => cases h
  | _ => rename_i ih; exact suffix_cons (ih h)

theorem suffix_of_destination? {limit : Option Nat} (h : destination? limit gs = some rest) :
    rest <:+ gs := by
  unfold destination? at h
  split at h
  · cases h
  · split at h
    · exact suffix_cons (suffix_of_enclosed? h)
    · split at h
      · cases h
      · exact suffix_of_bare? h

theorem suffix_of_titleFrom? {close : Char} {escaped : Bool}
    (h : titleFrom? close escaped gs = some rest) : rest <:+ gs := by
  induction gs generalizing escaped with
  | nil => cases h
  | cons g more ih =>
    rw [titleFrom?] at h
    split at h
    · exact suffix_cons (ih h)
    · split at h
      · cases h
        exact List.suffix_cons g _
      · exact suffix_cons (ih h)

theorem suffix_of_title? (h : title? gs = some rest) : rest <:+ gs := by
  unfold title? at h
  split at h
  · cases h
  · split at h
    · exact suffix_cons (suffix_of_titleFrom? h)
    · split at h
      · exact suffix_cons (suffix_of_titleFrom? h)
      · cases h

theorem suffix_of_skip? {c : Char} (h : skip? c gs = some rest) : rest <:+ gs := by
  unfold skip? at h
  split at h
  · split at h
    · cases h
      exact List.suffix_cons _ _
    · cases h
  · cases h

theorem suffix_of_resource? (h : resource? gs = some rest) : rest <:+ gs := by
  obtain ⟨inner, hopen, h⟩ := Option.bind_eq_some_iff.mp h
  have hinner : skipGap inner <:+ gs := (suffix_skipGap inner).trans (suffix_of_skip? hopen)
  rcases Option.or_eq_some_iff.mp h with hclose | ⟨-, h⟩
  · exact (suffix_of_skip? hclose).trans hinner
  · obtain ⟨behind, hdestination, h⟩ := Option.bind_eq_some_iff.mp h
    have hbehind : behind <:+ gs := (suffix_of_destination? hdestination).trans hinner
    split at h
    · exact (suffix_of_skip? h).trans hbehind
    · next gap hgap =>
      have hgap' : gap <:+ gs := (suffix_of_skipGap? hgap).trans hbehind
      have htitled : ∀ titled : Bool, (if titled then (title? gap).bind fun rest =>
          skip? ')' (skipGap rest) else skip? ')' gap) = some rest → rest <:+ gs := by
        intro titled h
        split at h
        · obtain ⟨behind, htitle, h⟩ := Option.bind_eq_some_iff.mp h
          exact (suffix_of_skip? h).trans
            ((suffix_skipGap behind).trans ((suffix_of_title? htitle).trans hgap'))
        · exact (suffix_of_skip? h).trans hgap'
      exact htitled _ h

theorem suffix_of_definitionTitle? (h : definitionTitle? gs = some rest) : rest <:+ gs := by
  obtain ⟨gap, hgap, h⟩ := Option.bind_eq_some_iff.mp h
  obtain ⟨titled, htitle, h⟩ := Option.bind_eq_some_iff.mp h
  dsimp only at h
  split at h
  · cases h
    exact (suffix_dropSpaces titled).trans
      ((suffix_of_title? htitle).trans (suffix_of_skipGap? hgap))
  · cases h

theorem suffix_of_definition? {label : List Glyph} (h : definition? gs = some (label, rest)) :
    rest <:+ gs := by
  obtain ⟨⟨name, behind⟩, hlabel, h⟩ := Option.bind_eq_some_iff.mp h
  obtain ⟨colon, hcolon, h⟩ := Option.bind_eq_some_iff.mp h
  obtain ⟨target, htarget, h⟩ := Option.bind_eq_some_iff.mp h
  have hsuffix : target <:+ gs :=
    (suffix_of_destination? htarget).trans
      ((suffix_skipGap colon).trans ((suffix_of_skip? hcolon).trans
      ((Label.suffix_of_read? hlabel).trans (suffix_dropSpaces gs))))
  dsimp only at h
  split at h
  · next titled htitle =>
    cases h
    exact (suffix_of_definitionTitle? htitle).trans hsuffix
  · split at h
    · cases h
      exact (suffix_dropSpaces target).trans hsuffix
    · cases h

end Target

/-! ## HTML -/

namespace Html

theorem suffix_of_after? {pattern : List Char} (h : after? pattern gs = some rest) :
    rest <:+ gs := by
  induction gs with
  | nil =>
    rw [after?] at h
    split at h
    · cases h
      exact List.suffix_rfl
    · cases h
  | cons g more ih =>
    rw [after?] at h
    split at h
    · cases h
      exact List.drop_suffix _ _
    · exact suffix_cons (ih h)

theorem suffix_of_value? {block : Bool} (h : value? block gs = some rest) : rest <:+ gs := by
  unfold value? at h
  split at h
  · cases h
  · split at h
    · split at h
      · next behind hafter =>
        split at h
        · cases h
          exact suffix_cons (suffix_of_after? hafter)
        · cases h
      · cases h
    · split at h
      · cases h
      · dsimp only at h
        split at h
        · cases h
          exact suffix_cons (List.dropWhile_suffix _)
        · cases h

theorem suffix_of_attributes? {block named : Bool} {fuel : Nat}
    (h : attributes? block fuel named gs = some rest) : rest <:+ gs := by
  induction fuel generalizing named gs with
  | zero => cases h
  | succ fuel ih =>
    have hdrop : gs.dropWhile isSeparator <:+ gs := List.dropWhile_suffix _
    rw [attributes?] at h
    split at h
    · cases h
    · next g more hmore =>
      rw [hmore] at hdrop
      refine List.IsSuffix.trans ?_ hdrop
      split at h
      · obtain ⟨behind, hvalue, h⟩ := Option.bind_eq_some_iff.mp h
        exact (ih h).trans ((suffix_of_value? hvalue).trans (suffix_cons (List.dropWhile_suffix _)))
      · split at h
        · cases h
          exact List.suffix_cons g _
        · split at h
          · split at h
            · split at h
              · cases h
                exact suffix_cons (List.suffix_cons _ _)
              · cases h
            · cases h
          · split at h
            · exact (ih h).trans (suffix_cons (List.dropWhile_suffix _))
            · cases h

theorem suffix_of_closingTag? (h : closingTag? gs = some rest) : rest <:+ gs := by
  have hdrop : gs.dropWhile isSeparator <:+ gs := List.dropWhile_suffix _
  unfold closingTag? at h
  split at h
  · next g more hmore =>
    rw [hmore] at hdrop
    split at h
    · cases h
      exact (List.suffix_cons g _).trans hdrop
    · cases h
  · cases h

theorem suffix_of_openingTag? {block : Bool} (h : openingTag? block gs = some rest) :
    rest <:+ gs := by
  unfold openingTag? at h
  split at h
  · exact suffix_of_attributes? h
  · cases h

theorem suffix_of_markup? (h : markup? gs = some rest) : rest <:+ gs := by
  unfold markup? at h
  split at h
  · exact suffix_of_after? h
  · split at h
    · exact (suffix_of_after? h).trans (List.drop_suffix _ _)
    · split at h
      · exact suffix_of_after? h
      · cases h

theorem suffix_of_inline? (h : inline? gs = some rest) : rest <:+ gs := by
  unfold inline? at h
  split at h
  · cases h
  · split at h
    · cases h
    · split at h
      · cases h
      · refine suffix_cons (suffix_cons ?_)
        split at h
        · exact suffix_of_markup? h
        · split at h
          · exact suffix_of_after? h
          · split at h
            · split at h
              · exact (suffix_of_closingTag? h).trans (List.dropWhile_suffix _)
              · cases h
            · split at h
              · exact (suffix_of_openingTag? h).trans (List.dropWhile_suffix _)
              · cases h

end Html

/-! ## Escapes, references and addresses -/

namespace Escape

theorem suffix_of_escape? {g : Glyph} (h : escape? gs = some (g, rest)) : rest <:+ gs := by
  unfold escape? at h
  split at h
  · split at h
    · cases h
      exact suffix_cons (List.suffix_cons _ _)
    · cases h
  · cases h

theorem suffix_of_terminated? {p : Char → Bool} {max : Nat} {name : List Char}
    (h : terminated? p max gs = some (name, rest)) : rest <:+ gs := by
  have hdrop : (gs.dropWhile fun g => p g.char) <:+ gs := List.dropWhile_suffix _
  unfold terminated? at h
  dsimp only at h
  split at h
  · next g more hmore =>
    rw [hmore] at hdrop
    split at h
    · cases h
      exact (List.suffix_cons g _).trans hdrop
    · cases h
  · cases h

theorem suffix_of_numbered? {value : List Char} (h : numbered? gs = some (value, rest)) :
    rest <:+ gs := by
  unfold numbered? at h
  split at h
  · split at h
    · obtain ⟨⟨digits, left⟩, hdigits, heq⟩ := Option.map_eq_some_iff.mp h
      cases heq
      exact suffix_cons (suffix_of_terminated? hdigits)
    · obtain ⟨⟨digits, left⟩, hdigits, heq⟩ := Option.map_eq_some_iff.mp h
      cases heq
      exact suffix_of_terminated? hdigits
  · cases h

theorem suffix_of_reference? {value : List Char} (h : reference? gs = some (value, rest)) :
    rest <:+ gs := by
  unfold reference? at h
  split at h
  · split at h
    · cases h
    · split at h
      · exact suffix_cons (suffix_cons (suffix_of_numbered? h))
      · obtain ⟨⟨name, left⟩, hname, h⟩ := Option.bind_eq_some_iff.mp h
        obtain ⟨characters, -, heq⟩ := Option.map_eq_some_iff.mp h
        cases heq
        exact suffix_cons (suffix_of_terminated? hname)
  · cases h

end Escape

namespace Autolink

theorem suffix_of_bracketed? {address : List Glyph} (h : bracketed? gs = some (address, rest)) :
    rest <:+ gs := by
  unfold bracketed? at h
  split at h
  · cases h
  · next g more =>
    split at h
    · cases h
    · obtain ⟨⟨inner, left⟩, hupTo, h⟩ := Option.bind_eq_some_iff.mp h
      have hdrop : (more.dropWhile fun g => !endsAddress g.char) <:+ more := List.dropWhile_suffix _
      unfold upTo? at hupTo
      split at hupTo
      · next k behind hbehind =>
        rw [hbehind] at hdrop
        split at hupTo
        · cases hupTo
          dsimp only at h
          split at h
          · cases h
            exact suffix_cons ((List.suffix_cons k _).trans hdrop)
          · cases h
        · cases hupTo
      · cases hupTo

end Autolink

/-! ## Running text -/

namespace Inline

theorem suffix_of_closingTicks? {size fuel : Nat} {text : List Glyph}
    (h : closingTicks? size fuel gs = some (text, rest)) : rest <:+ gs := by
  induction fuel generalizing gs text with
  | zero => cases h
  | succ fuel ih =>
    have hleft : ((gs.dropWhile (·.char ≠ '`')).dropWhile (·.char = '`')) <:+ gs :=
      (List.dropWhile_suffix _).trans (List.dropWhile_suffix _)
    rw [closingTicks?] at h
    dsimp only at h
    split at h
    · cases h
    · split at h
      · cases h
        exact hleft
      · obtain ⟨⟨more, left⟩, hmore, heq⟩ := Option.map_eq_some_iff.mp h
        cases heq
        exact (ih hmore).trans hleft

/-- Code starts with a backtick, spans what is taken off, and leaves the rest. -/
theorem exists_code {cell : Bool} {piece : Piece} (h : code? cell gs = some (piece, rest)) :
    ∃ run value, gs = run ++ rest ∧ run.head?.map (·.char) = some '`' ∧
      piece = .node (.inlineCode (some (Glyph.spanOf run)) value) := by
  unfold code? at h
  dsimp only at h
  split at h
  · cases h
  · next hticks =>
    obtain ⟨⟨text, left⟩, hclosing, heq⟩ := Option.map_eq_some_iff.mp h
    obtain ⟨rfl, rfl⟩ := Prod.mk.inj heq
    have hdropped := suffix_of_closingTicks? hclosing
    refine ⟨_, _, (List.suffix_iff_eq_append.mp (hdropped.trans (List.drop_suffix _ gs))).symm, ?_,
      rfl⟩
    cases gs with
    | nil => exact absurd rfl hticks
    | cons g more =>
      have htick : g.char = '`' :=
        Decidable.byContradiction fun hne => hticks (by simp [hne])
      have hlength := hdropped.length_le
      rw [List.length_drop] at hlength
      obtain ⟨n, hn⟩ : ∃ n, (g :: more).length - left.length = n + 1 := by
        refine Nat.exists_eq_succ_of_ne_zero ?_
        simp [htick] at hlength ⊢
        omega
      rw [hn, List.take_succ_cons, List.head?_cons, Option.map_some, htick]

theorem suffix_of_backslash? {piece : Piece} (h : backslash? gs = some (piece, rest)) :
    rest <:+ gs := by
  unfold backslash? at h
  split at h
  · split at h
    · cases h
      exact suffix_cons (List.suffix_cons _ _)
    · obtain ⟨⟨e, left⟩, hescape, heq⟩ := Option.map_eq_some_iff.mp h
      cases heq
      exact Escape.suffix_of_escape? hescape
  · cases h

theorem suffix_of_angle? {piece : Piece} (h : angle? gs = some (piece, rest)) : rest <:+ gs := by
  unfold angle? at h
  split at h
  · next address left hbracketed =>
    cases h
    exact Autolink.suffix_of_bracketed? hbracketed
  · obtain ⟨left, hinline, heq⟩ := Option.map_eq_some_iff.mp h
    cases heq
    exact Html.suffix_of_inline? hinline

/-- **A construct leaves a suffix.** -/
theorem suffix_of_construct? {cell escaped : Bool} {before : Option Char} {piece : Piece}
    (h : construct? cell before escaped gs = some (piece, rest)) : rest <:+ gs := by
  unfold construct? at h
  split at h
  · cases h
  · split at h
    · cases h
      exact List.suffix_cons _ _
    · split at h
      · exact suffix_of_backslash? h
      · split at h
        · obtain ⟨⟨value, left⟩, hreference, heq⟩ := Option.map_eq_some_iff.mp h
          cases heq
          exact Escape.suffix_of_reference? hreference
        · split at h
          · split at h
            · cases h
            · obtain ⟨run, value, hrun, -⟩ := exists_code h
              exact ⟨run, hrun.symm⟩
          · split at h
            · exact suffix_of_angle? h
            · split at h
              · cases h
                exact List.drop_suffix _ _
              · obtain ⟨address, -, heq⟩ := Option.map_eq_some_iff.mp h
                cases heq
                exact List.drop_suffix _ _

/-- What follows the target of a bracket is a suffix. -/
theorem suffix_of_target? {labels : Labels} {isDefined byLabel : Bool}
    (h : target? labels isDefined gs = some (byLabel, rest)) : rest <:+ gs := by
  have hshortcut : (if isDefined = true then some (true, gs) else none) = some (byLabel, rest) →
      rest <:+ gs := by
    intro hsome
    split at hsome
    · cases hsome
      exact List.suffix_rfl
    · cases hsome
  unfold target? at h
  dsimp only at h
  split at h
  · rcases Option.or_eq_some_iff.mp h with h | ⟨-, h⟩
    · obtain ⟨left, hresource, heq⟩ := Option.map_eq_some_iff.mp h
      cases heq
      exact Target.suffix_of_resource? hresource
    · exact hshortcut h
  · split at h
    · rcases Option.or_eq_some_iff.mp h with h | ⟨-, h⟩
      · obtain ⟨⟨label, left⟩, hread, h⟩ := Option.bind_eq_some_iff.mp h
        dsimp only at h
        split at h
        · cases h
          exact Label.suffix_of_read? hread
        · cases h
      · split at h
        · cases h
          exact List.drop_suffix _ _
        · cases h
    · exact hshortcut h

end Inline

end LiveDoc.Markdown
