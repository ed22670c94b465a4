import LiveDoc.Proofs.Markdown.FenceSpan
import LiveDoc.Proofs.Text.Slice

/-!
# Lines whose edited code is fenced

Some of the code that lines hold is edited. When all of this is fenced code, opened by a line to
come (`Outline.EditsFences`), the lines fall into fences that are edited and lines that are not in
any (`Outline.EditsFences.line_or_fence`).
-/

namespace LiveDoc.Markdown

open Text (byteLength)

variable {p n : Nat} {o : Outline} {r : RawLine} {rest : List RawLine}

/-! ## Where code ends -/

theorem Leaf.Begins.stop_le {gs : List Glyph} {codes : List Code} {next : Leaf}
    (h : Leaf.Begins p n gs codes next) :
    ∀ c ∈ codes, c.span.stop ≤ n := by
  intro c hc
  cases h with
  | nothing => cases hc
  | fence => cases hc
  | indented => cases hc
  | single _ _ hstop => rw [List.mem_singleton.mp hc]; exact hstop

namespace Outline

/-- Code that a line completes ends on that line or before it. -/
theorem stop_le_of_mem_step (ho : o.Before p) {c : Code} (hc : c ∈ (o.step (r.lineAt p)).1) :
    c.span.stop ≤ p + byteLength r.text := by
  have hturns := turns_step_lineAt ho r
  generalize (o.step (r.lineAt p)).1 = codes at hturns hc
  generalize (o.step (r.lineAt p)).2.leaf = next at hturns
  cases hturns with
  | goesOn => cases hc
  | ends hends hbegins =>
    rcases List.mem_append.mp hc with hc | hc
    · exact hends.stop_le c hc
    · exact hbegins.stop_le c hc

theorem ends_flushed (ho : o.Before p) : o.leaf.Ends p o.flushed :=
  Leaf.ends_close ho.leaf (o.leaf.endAt_le ho.stop ho.next).2

/-! ## Outlines that were moved -/

theorem readTo_shift (d place : Nat) (o : Outline) (ls : List Line) :
    (o.shift d).readTo (place + d) (ls.map (Line.shift d)) = (o.readTo place ls).shift d := by
  induction ls generalizing o with
  | nil => rfl
  | cons l rest ih =>
    have hstart : (l.shift d).start < place + d ↔ l.start < place := Nat.add_lt_add_iff_right
    rw [List.map_cons, readTo, readTo, step_shift, ih]
    simp only [hstart]
    split <;> rfl

theorem before_of_shift {d : Nat} (h : (o.shift d).Before (p + d)) : o.Before p := by
  refine ⟨Nat.le_of_add_le_add_right h.stop, Nat.le_of_add_le_add_right h.next, ?_⟩
  intro start stop value waiting hleaf
  have hstop := h.leaf (start + d) (stop + d) value waiting (by rw [shift, hleaf]; rfl)
  exact Nat.le_of_add_le_add_right hstop

theorem holds_shift (d : Nat) {leaf : Leaf} {c : Code} (h : leaf.Holds c) :
    (leaf.shift d).Holds (c.shift d) := by
  cases leaf with
  | fence op value ending =>
    obtain ⟨stop, text, rfl⟩ := h
    exact ⟨stop + d, text, (op.code_shift d stop text).symm⟩
  | indented start stop value waiting => exact congrArg (· + d) h
  | _ => exact h.elim

/-! ## Code that is edited -/

/-- The code of a leaf comes first. -/
theorem eq_head_of_holds {rs : List RawLine} {c d : Code} {more : List Code} (ho : o.Before p)
    (hcodes : o.codes (linesAt p rs) = d :: more) (hc : c ∈ o.codes (linesAt p rs))
    (hholds : o.leaf.Holds c) (hlt : c.span.start < p) : c = d := by
  obtain ⟨ended, new, hall, hfirst, hnew⟩ := codes_cases ho rs
  rcases hfirst with ⟨hnone, -⟩ | ⟨e, rfl, -⟩
  · rw [hholds.codeStart?] at hnone
    cases hnone
  · rw [hall] at hcodes hc
    obtain ⟨rfl, -⟩ := List.cons.inj hcodes
    rcases List.mem_append.mp hc with hc | hc
    · exact List.mem_singleton.mp hc
    · exact absurd (hnew c hc) (Nat.not_le_of_lt hlt)

end Outline

theorem Code.shift_shift (a b : Nat) (c : Code) : (c.shift a).shift b = c.shift (a + b) := by
  have hglyphs : ∀ gs : List Glyph, shifted b (shifted a gs) = shifted (a + b) gs := fun gs => by
    simp only [shifted, List.map_map]
    exact List.map_congr_left fun g _ => by simp [Glyph.shift, Nat.add_assoc]
  simp only [Code.shift, Option.map_map, Function.comp_def, hglyphs, Nat.add_assoc]

/-- Code that is edited, and what is asked of its fence. -/
structure Selection where
  edited : Code → Prop
  /-- What is asked of the containers around the fence, and of its indentation. -/
  opened : Code → List Container → Nat → Prop
  /-- What is asked of the place where the code stops: whether a fence is open there. -/
  ended : Code → Bool → Prop

namespace Selection

/-- What is edited in a text in front of which as many bytes are left out. -/
def shift (d : Nat) (e : Selection) : Selection :=
  ⟨fun c => e.edited (c.shift d), fun c => e.opened (c.shift d), fun c => e.ended (c.shift d)⟩

theorem shift_shift (a b : Nat) (e : Selection) : (e.shift a).shift b = e.shift (b + a) := by
  simp only [shift, Code.shift_shift]

end Selection

namespace Outline

/-- The code to come that is edited is that of fences which lines to come open. -/
structure EditsFences (e : Selection) (p : Nat) (o : Outline) (rs : List RawLine) : Prop where
  before : o.Before p
  wellFormed : WellFormed rs
  leaf : ∀ c ∈ o.codes (linesAt p rs), o.leaf.Holds c → ¬ e.edited c
  lt : ∀ c, e.edited c → c.span.start < c.span.stop
  opens : ∀ c ∈ o.codes (linesAt p rs), p ≤ c.span.start → e.edited c → ∃ op value ending,
    (o.readTo (c.span.start + 1) (linesAt p rs)).leaf = .fence op value ending ∧
      e.opened c (o.readTo (c.span.start + 1) (linesAt p rs)).containers op.indent
  ends : ∀ c ∈ o.codes (linesAt p rs), p ≤ c.span.start → e.edited c →
    e.ended c (o.readTo c.span.stop (linesAt p rs)).leaf.isFence

namespace EditsFences

variable {e : Selection}

theorem shift {d : Nat} {rs : List RawLine} (h : EditsFences e (p + d) (o.shift d) rs) :
    EditsFences (e.shift d) p o rs := by
  have hmem : ∀ c ∈ o.codes (linesAt p rs), c.shift d ∈ (o.shift d).codes (linesAt (p + d) rs) := by
    intro c hc
    rw [linesAt_shift, codes_shift]
    exact List.mem_map_of_mem hc
  have hread : ∀ place, (o.shift d).readTo (place + d) (linesAt (p + d) rs) =
      (o.readTo place (linesAt p rs)).shift d := by
    intro place
    rw [linesAt_shift, readTo_shift]
  refine ⟨before_of_shift h.before, h.wellFormed, ?_, ?_, ?_, ?_⟩
  · exact fun c hc hholds => h.leaf _ (hmem c hc) (holds_shift d hholds)
  · exact fun c hc => Nat.lt_of_add_lt_add_right (h.lt _ hc)
  · intro c hc hle hedited
    obtain ⟨op, value, ending, hleaf, hopened⟩ :=
      h.opens _ (hmem c hc) (Nat.add_le_add_right hle d) hedited
    have hplace : (c.shift d).span.start + 1 = c.span.start + 1 + d := Nat.add_right_comm _ _ _
    rw [hplace, hread] at hleaf hopened
    generalize o.readTo (c.span.start + 1) (linesAt p rs) = after at hleaf hopened ⊢
    obtain ⟨containers, leaf, interrupting, stop, next⟩ := after
    cases leaf with
    | fence op' value' ending' =>
      obtain ⟨rfl, -, -⟩ := Leaf.fence.inj hleaf
      exact ⟨op', value', ending', rfl, hopened⟩
    | _ => cases hleaf
  · intro c hc hle hedited
    have hended := h.ends _ (hmem c hc) (Nat.add_le_add_right hle d) hedited
    rw [show (c.shift d).span.stop = c.span.stop + d from rfl, hread] at hended
    generalize o.readTo c.span.stop (linesAt p rs) = after at hended ⊢
    obtain ⟨containers, leaf, interrupting, stop, next⟩ := after
    cases leaf <;> exact hended

/-- The code behind lines, where an outline goes on as the one that read these lines. -/
theorem behind {q : Nat} {w : Outline} {rs more : List RawLine} (h : EditsFences e p o rs)
    (hle : p ≤ q) (hbefore : w.Before q) (hwf : WellFormed more)
    (hleaf : ∀ c ∈ w.codes (linesAt q more), w.leaf.Holds c → ¬ e.edited c)
    (hcodes : ∀ c ∈ w.codes (linesAt q more), c ∈ o.codes (linesAt p rs))
    (hreads : w.codes (linesAt q more) ≠ [] → ∀ place, q < place →
      o.readTo place (linesAt p rs) = w.readTo place (linesAt q more)) :
        EditsFences e q w more := by
  refine ⟨hbefore, hwf, hleaf, h.lt, ?_, ?_⟩
  · intro c hc hplace hedited
    rw [← hreads (List.ne_nil_of_mem hc) _ (Nat.lt_succ_of_le hplace)]
    exact h.opens c (hcodes c hc) (Nat.le_trans hle hplace) hedited
  · intro c hc hplace hedited
    rw [← hreads (List.ne_nil_of_mem hc) _ (Nat.lt_of_le_of_lt hplace (h.lt c hedited))]
    exact h.ends c (hcodes c hc) (Nat.le_trans hle hplace) hedited

theorem readTo_cons {place : Nat} (hlt : p < place) (r : RawLine) (rest : List RawLine) :
    o.readTo place (linesAt p (r :: rest)) =
      (o.step (r.lineAt p)).2.readTo place (linesAt (p + r.size) rest) := by
  have hstart : (r.lineAt p).start < place := hlt
  rw [linesAt, readTo, if_pos hstart]

theorem mem_codes_cons {c : Code}
    (hc : c ∈ (o.step (r.lineAt p)).2.codes (linesAt (p + r.size) rest)) :
    c ∈ o.codes (linesAt p (r :: rest)) := by
  rw [linesAt, codes_cons]
  exact List.mem_append_right _ hc

/-- What is open where code starts that is edited, when it starts on the first line. -/
theorem exists_leaf (h : EditsFences e p o (r :: rest)) {c : Code}
    (hc : c ∈ o.codes (linesAt p (r :: rest))) (hle : p ≤ c.span.start)
    (hlt : c.span.start < p + r.size) (hedited : e.edited c) :
    ∃ op value ending, (o.step (r.lineAt p)).2.leaf = .fence op value ending ∧
      e.opened c (o.step (r.lineAt p)).2.containers op.indent := by
  have hopens := h.opens c hc hle hedited
  rwa [readTo_cons (Nat.lt_succ_of_le hle), readTo_of_le hlt] at hopens

/-- Code that does not start in a fence is not edited. -/
theorem not_edited_of_isFence (h : EditsFences e p o (r :: rest)) {c : Code}
    (hc : c ∈ o.codes (linesAt p (r :: rest))) (hle : p ≤ c.span.start)
    (hlt : c.span.start < p + byteLength r.text)
    (hleaf : (o.step (r.lineAt p)).2.leaf.isFence = false) :
    ¬ e.edited c := by
  intro hedited
  have hsize : r.size = byteLength r.text + byteLength r.ending := Text.byteLength_append _ _
  obtain ⟨op, value, ending, hfence, -⟩ := h.exists_leaf hc hle (by omega) hedited
  rw [hfence] at hleaf
  cases hleaf

/-- What a line completes is not edited. -/
theorem not_edited_of_mem_step (h : EditsFences e p o (r :: rest)) :
    ∀ c ∈ (o.step (r.lineAt p)).1, ¬ e.edited c := by
  have hmem : ∀ c ∈ (o.step (r.lineAt p)).1, c ∈ o.codes (linesAt p (r :: rest)) := by
    intro c hc
    rw [linesAt, codes_cons]
    exact List.mem_append_left _ hc
  have hturns := turns_step_lineAt h.before r
  have hfence := fun c hc => h.not_edited_of_isFence (c := c) hc
  generalize (o.step (r.lineAt p)).1 = codes at hturns hmem
  generalize (o.step (r.lineAt p)).2.leaf = next at hturns hfence
  intro c hc
  cases hturns with
  | goesOn => cases hc
  | ends hends hbegins =>
    rcases List.mem_append.mp hc with hended | hnew
    · rcases hends.holds with ⟨-, rfl⟩ | ⟨d, rfl, hd⟩
      · cases hended
      · obtain rfl := List.mem_singleton.mp hended
        exact h.leaf c (hmem c hc) hd
    · obtain ⟨hle, hlt⟩ := hbegins.le_start.1 c hnew
      cases hbegins with
      | single => exact hfence c (hmem c hc) hle hlt rfl
      | _ => cases hnew

/-- The code that is open behind the first line is edited only if this line opens a fence. -/
theorem exists_opened {c : Code} (h : EditsFences e p o (r :: rest))
    (hc : c ∈ (o.step (r.lineAt p)).2.codes (linesAt (p + r.size) rest))
    (hholds : (o.step (r.lineAt p)).2.leaf.Holds c) (hedited : e.edited c) :
    ∃ op ending, (o.step (r.lineAt p)).2.leaf = .fence op [] ending ∧
      p ≤ c.span.start ∧ c.span.start < p + r.size := by
  have hmem := mem_codes_cons hc
  have hsize : r.size = byteLength r.text + byteLength r.ending := Text.byteLength_append _ _
  have hturns := turns_step_lineAt h.before r
  have hfence := h.not_edited_of_isFence hmem
  generalize (o.step (r.lineAt p)).1 = codes at hturns
  generalize (o.step (r.lineAt p)).2.leaf = next at hturns hfence hholds
  cases hturns with
  | goesOn hon => exact absurd hedited (h.leaf c hmem (hon.holds hholds))
  | ends _ hbegins =>
    obtain ⟨hle, hlt⟩ := hbegins.le_start.2 c hholds
    cases hbegins with
    | nothing hnone => rw [hholds.codeStart?] at hnone; cases hnone
    | fence => exact ⟨_, _, rfl, hle, by omega⟩
    | indented => exact absurd hedited (hfence hle hlt rfl)
    | single => exact hholds.elim

end EditsFences

/-- A fence that a line opens, with what is asked of it. -/
structure EditedFence (e : Selection) (o : Outline) (p : Nat) (op : FenceOpening) (first : RawLine)
    (inner more : List RawLine) (stop : Nat) (text : List (List Char)) (left : List Char) :
    Prop where
  opens : ∃ ending, (o.step (first.lineAt p)).2.leaf = .fence op [] ending
  rest : (o.step (first.lineAt p)).2.RestOfFence (p + first.size) op first inner more stop text left
  wellFormed : WellFormed (first :: (inner ++ more))
  edited : e.edited (op.code stop text)
  opened : e.opened (op.code stop text) (o.step (first.lineAt p)).2.containers op.indent
  ended : e.ended (op.code stop text)
    ((o.step (first.lineAt p)).2.readTo stop
      (linesAt (p + first.size) (inner ++ more))).leaf.isFence

namespace EditedFence

variable {e : Selection} {op : FenceOpening} {first : RawLine} {inner more : List RawLine}
  {stop : Nat}
variable {text : List (List Char)} {left : List Char}

theorem wellFormed_more (h : EditedFence e o p op first inner more stop text left) :
    WellFormed more :=
  h.wellFormed.tail.right

/-- The code of lines that start with a fence. -/
theorem codes_eq (h : EditedFence e o p op first inner more stop text left) :
    o.codes (linesAt p (first :: (inner ++ more))) = (o.step (first.lineAt p)).1 ++
      op.code stop text ::
      (behindFence (o.step (first.lineAt p)).2.containers stop left).codes
        (linesAt (stop + byteLength left) more) := by
  rw [linesAt, codes_cons, h.rest.codes, h.rest.place_eq]

end EditedFence

namespace EditsFences

variable {e : Selection}

/-- The code of a fence that a line opens is what is asked for, if it is edited. -/
theorem exists_editedFence {op : FenceOpening} {ending : List Char} {c : Code}
    (h : EditsFences e p o (r :: rest)) (hleaf : (o.step (r.lineAt p)).2.leaf = .fence op [] ending)
    (hc : c ∈ (o.step (r.lineAt p)).2.codes (linesAt (p + r.size) rest)) (hle : p ≤ c.span.start)
    (hlt : c.span.start < p + r.size) (hholds : (o.step (r.lineAt p)).2.leaf.Holds c)
    (hedited : e.edited c) :
    ∃ inner more stop text left, rest = inner ++ more ∧
      EditedFence e o p op r inner more stop text left := by
  obtain ⟨inner, more, stop, text, left, rfl, hrest⟩ := exists_restOfFence_opening hleaf rest
  obtain rfl := eq_head_of_holds (before_step_lineAt h.before r) hrest.codes hc hholds hlt
  have hmem := mem_codes_cons hc
  refine ⟨inner, more, stop, text, left, rfl, ⟨ending, hleaf⟩, hrest, h.wellFormed, hedited, ?_, ?_⟩
  · obtain ⟨op', value, ending', hleaf', hopened⟩ := h.exists_leaf hmem hle hlt hedited
    obtain ⟨rfl, -, -⟩ := Leaf.fence.inj (hleaf.symm.trans hleaf')
    exact hopened
  · have hended := h.ends _ hmem hle hedited
    rwa [readTo_cons (Nat.lt_of_le_of_lt hle (h.lt _ hedited))] at hended

/-- **Lines with edited code.** The first line completes no code that is edited, and either the same
can be said of the lines behind it, or it opens a fence that is edited, and the same can be said of
the lines behind this fence. -/
theorem line_or_fence (h : EditsFences e p o (r :: rest)) :
    (∀ c ∈ (o.step (r.lineAt p)).1, ¬ e.edited c) ∧
    (EditsFences e (p + r.size) (o.step (r.lineAt p)).2 rest ∨
      ∃ op inner more stop text left, rest = inner ++ more ∧
        EditedFence e o p op r inner more stop text left ∧
        EditsFences e (stop + byteLength left)
          (behindFence (o.step (r.lineAt p)).2.containers stop left) more) := by
  refine ⟨h.not_edited_of_mem_step, ?_⟩
  by_cases hopen : ∀ c ∈ (o.step (r.lineAt p)).2.codes (linesAt (p + r.size) rest),
      (o.step (r.lineAt p)).2.leaf.Holds c → ¬ e.edited c
  · exact Or.inl
      (h.behind (Nat.le_add_right p _) (before_step_lineAt h.before r) h.wellFormed.tail hopen
      (fun c hc => mem_codes_cons hc)
      (fun _ place hlt => readTo_cons (Nat.lt_of_le_of_lt (Nat.le_add_right p _) hlt) r rest))
  · -- the code that is open behind the line is edited, so it is a fence that the line opens
    push Not at hopen
    obtain ⟨c, hc, hholds, hedited⟩ := hopen
    obtain ⟨op, ending, hleaf, hle, hlt⟩ := h.exists_opened hc hholds hedited
    obtain ⟨inner, more, stop, text, left, rfl, hfence⟩ :=
      h.exists_editedFence hleaf hc hle hlt hholds hedited
    refine Or.inr ⟨op, inner, more, stop, text, left, rfl, hfence, ?_⟩
    have hrest := hfence.rest
    have hplace : p ≤ stop + byteLength left := by
      rw [hrest.place_eq, Nat.add_assoc]
      exact Nat.le_add_right _ _
    refine h.behind hplace
      ⟨Nat.le_add_right _ _, Nat.le_refl _, fun _ _ _ _ hnone => Leaf.noConfusion hnone⟩
      hfence.wellFormed_more (fun _ _ hnone => hnone.elim) ?_ ?_
    · intro c hc
      refine mem_codes_cons ?_
      rw [hrest.codes, ← hrest.place_eq]
      exact List.mem_cons_of_mem _ hc
    · intro hne place hlt
      have hmore : more ≠ [] := by
        rintro rfl
        exact hne rfl
      rw [hrest.place_eq] at hlt
      rw [readTo_cons (by omega), hrest.reads hmore place hlt, hrest.place_eq]

end EditsFences

end Outline

end LiveDoc.Markdown
