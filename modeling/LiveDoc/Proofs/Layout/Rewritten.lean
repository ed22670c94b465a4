import LiveDoc.Proofs.Layout.Edited
import LiveDoc.Proofs.Layout.FenceCourse
import LiveDoc.Proofs.Layout.FenceText
import LiveDoc.Proofs.Tree.Kinds

/-!
# A text whose fences are written anew

A text and what its edits make of it are read side by side, line by line (`Rewritten.line`) and
fence by fence (`Rewritten.fence`). As long as nothing is edited both are read by outlines that are
moved along; behind a fence that was edited they are read by another one.

* `Revision` — the edits, and what the code of the new text has to do with that of the old one. It
  is sound when each fence that is edited is replaced by lines that are a fence again
  (`Revision.Sound`).
* `exists_rewritten` — the code of both texts is related one by one then.
-/

namespace LiveDoc.Markdown

open Text (byteLength byteLength_append isUnbroken IsEnding)
open Layout (Edit Edited leadingRun leadingRun_le_append)
open Outline (behindFence EditsFences EditedFence OpensAt)

/-! ## Lines with other lines behind them -/

section Lines

variable {r r' : RawLine} {rs ys : List RawLine}

/-- A line end may stand in front of any lines that start as those do that it stands in front of. -/
theorem leads_of_heads (hr : r'.ending = r.ending) (h : WellFormed (r :: rs)) (hys : WellFormed ys)
    (hhead : (flat ys).head? = (flat rs).head?) : ∀ s ∈ ys.head?, r'.Leads s := by
  intro s hs
  have hshead := head?_of_mem_head? hys hs
  cases rs with
  | nil =>
    rw [hhead] at hshead
    have hne := (hys.sound s (List.mem_of_mem_head? hs)).ne_nil
    exact absurd (List.head?_eq_none_iff.mp hshead) hne
  | cons t more =>
    obtain ⟨hne, hcr⟩ := (List.isChain_cons_cons.mp h.leads).1
    have hthead := head?_of_mem_head? h.tail (r := t) rfl
    unfold RawLine.Leads
    rw [hr, hshead, hhead, ← hthead]
    exact ⟨hne, hcr⟩

/-- Other lines that start in the same way may stand behind a line. -/
theorem WellFormed.exchange (h : WellFormed (r :: rs)) (hys : WellFormed ys)
    (hhead : (flat ys).head? = (flat rs).head?) :
    WellFormed (r :: ys) ∧ (flat (r :: ys)).head? = (flat (r :: rs)).head? := by
  have hr := h.sound r List.mem_cons_self
  refine ⟨hys.cons hr (leads_of_heads rfl h hys hhead), ?_⟩
  obtain ⟨c, more, hall⟩ := List.exists_cons_of_ne_nil hr.ne_nil
  rw [flat_cons, flat_cons, ← RawLine.all, hall]
  rfl

/-- A line with a line end of its own may stand in front of any lines. -/
theorem WellFormed.cons_ended {text ending : List Char} (h : WellFormed rs)
    (htext : ∀ c ∈ text, isUnbroken c) (he : IsEnding ending) :
    WellFormed (⟨text, ending⟩ :: rs) := by
  refine h.cons ⟨htext, Or.inr (Or.inl he), ?_⟩ fun s _ => ?_
  · rcases he with rfl | rfl <;> simp [RawLine.all]
  · rcases he with rfl | rfl <;> exact ⟨by simp, by simp⟩

/-- Lines with line ends of their own may stand in front of any lines. -/
theorem WellFormed.append_ended (h : WellFormed ys)
    (hrs : ∀ r ∈ rs, (∀ c ∈ r.text, isUnbroken c) ∧ IsEnding r.ending) : WellFormed (rs ++ ys) := by
  induction rs with
  | nil => exact h
  | cons r rest ih =>
    obtain ⟨hr, hrest⟩ := List.forall_mem_cons.mp hrs
    exact (ih hrest).cons_ended hr.1 hr.2

/-- A line may lose what it starts with. -/
theorem WellFormed.drop_front {front text ending : List Char}
    (h : WellFormed (⟨front ++ text, ending⟩ :: rs)) (hne : text ≠ []) :
    WellFormed (⟨text, ending⟩ :: rs) := by
  have hr := h.sound _ List.mem_cons_self
  refine h.tail.cons
    ⟨fun c hc => hr.text c (List.mem_append_right _ hc), hr.ending, by simp [RawLine.all, hne]⟩ ?_
  exact leads_of_heads (r := ⟨front ++ text, ending⟩) rfl h h.tail rfl

theorem WellFormed.eq_nil (h : WellFormed rs) (hflat : flat rs = []) : rs = [] := by
  cases rs with
  | nil => rfl
  | cons r more =>
    rw [flat_cons, ← RawLine.all] at hflat
    exact absurd (List.append_eq_nil_iff.mp hflat).1 (h.sound r List.mem_cons_self).ne_nil

/-- Lines up to one that may have another line end. -/
theorem WellFormed.cut {front more : List RawLine} {text ending : List Char}
    (h : WellFormed (front ++ ⟨text, ending⟩ :: more)) (hne : text ≠ []) :
    WellFormed (front ++ [⟨text, []⟩]) := by
  rw [List.append_cons] at h
  have hfront : WellFormed (front ++ [⟨text, ending⟩]) :=
    ⟨fun r hr => h.sound r (List.mem_append_left _ hr), (List.isChain_append.mp h.leads).1⟩
  exact hfront.set_ending hne (Or.inl rfl)

end Lines

/-! ## Code that is fenced in a text -/

/-- Those blocks of code that are fences in a text. -/
def fenced (source : List Char) (cs : List Code) : List Code :=
  cs.filter fun c => Tree.isFenced source (some c.span)

@[simp] theorem fenced_append (source : List Char) (cs ds : List Code) :
    fenced source (cs ++ ds) = fenced source cs ++ fenced source ds := List.filter_append ..

theorem fenced_singleton {source : List Char} {c : Code}
    (h : Tree.isFenced source (some c.span) = true) :
    fenced source [c] = [c] := by
  rw [fenced, List.filter_singleton, h]
  rfl

/-- Whether code is fenced does not depend on what stands around its text. -/
theorem fenced_shift {before text : List Char} {cs : List Code}
    (h : ∀ c ∈ cs, c.span.stop ≤ byteLength text) (more : List Char) :
    fenced (before ++ (text ++ more)) (cs.map (Code.shift (byteLength before))) =
      (fenced text cs).map (Code.shift (byteLength before)) := by
  have hfenced : ∀ c ∈ cs, Tree.isFenced (before ++ (text ++ more))
      (some (c.shift (byteLength before)).span) = Tree.isFenced text (some c.span) := by
    intro c hc
    have hslice := slice_append_shift before (text ++ more) c.span
    rw [slice_append_left text more (h c hc)] at hslice
    simp only [Tree.isFenced, Option.bind_some, Code.shift, hslice]
  rw [fenced, List.filter_map, fenced]
  exact congrArg _ (List.filter_congr hfenced)

/-- What starts with a run of three markers starts with the marker of a fence. -/
theorem startsFence_of_marker {old : List Char} {m : Char} (hm : m = '`' ∨ m = '~')
    (hrun : 3 ≤ leadingRun m old) : Tree.startsFence old = true := by
  obtain ⟨rest, rfl⟩ : ∃ rest, old = m :: m :: m :: rest := by
    unfold leadingRun at hrun
    match old with
    | [] => simp at hrun
    | [a] => by_cases ha : a = m <;> simp [ha] at hrun
    | [a, b] => by_cases ha : a = m <;> by_cases hb : b = m <;> simp [ha, hb] at hrun
    | a :: b :: c :: rest =>
      by_cases ha : a = m <;> by_cases hb : b = m <;> by_cases hc :
        c = m <;> simp [ha, hb, hc] at hrun
      exact ⟨rest, by rw [ha, hb, hc]⟩
  rcases hm with rfl | rfl <;> simp [Tree.startsFence]

/-- Code whose text starts with a marker is fenced. -/
theorem isFenced_of_marker {source old : List Char} {span : Text.Span} {m : Char}
    (hold : Text.slice source span = some old) (hm : m = '`' ∨ m = '~')
    (hrun : 3 ≤ leadingRun m old) :
    Tree.isFenced source (some span) = true :=
  Tree.isFenced_iff.mpr (Or.inl ⟨old, hold, startsFence_of_marker hm hrun⟩)

/-! ## Revisions -/

/-- Lines in place of those of a fence: they are a fence that starts where the old one does, and
what is read around them does not change. The fence may end in front of the end of what is
written. -/
structure Replaces (o : Outline) (p : Nat) (op : FenceOpening) (first : RawLine)
    (inner more : List RawLine) (left front content : List Char) (new : List RawLine)
    (op' : FenceOpening) (fence : List Char) (text : List (List Char)) : Prop where
  flat_eq : flat new = front ++ content ++ left
  wellFormed : ∀ ys, WellFormed ys → (flat ys).head? = (flat more).head? → WellFormed (new ++ ys) ∧
    (flat (new ++ ys)).head? = (flat (first :: (inner ++ more))).head?
  start : op'.start = p + byteLength front
  isPrefix : fence <+: content
  marked : 3 ≤ leadingRun op.marker fence
  codes : ∀ ys, o.codes (linesAt p (new ++ ys)) = (o.step (first.lineAt p)).1 ++
    op'.code (p + byteLength (front ++ fence)) text ::
      (behindFence (o.step (first.lineAt p)).2.containers
        (p + byteLength (front ++ content)) left).codes
        (linesAt (p + byteLength (front ++ content) + byteLength left) ys)

/-- How the fences of a text are written anew: the edits, what is asked of the fences that are
edited, and what the code of the new text has to do with that of the old one. -/
structure Revision where
  edit? : Code → Option Edit
  opened : Code → List Container → Nat → Prop
  ended : Code → Bool → Prop
  same : Code → Code → Prop

/-- The code that is edited. -/
def Revision.selection (R : Revision) : Selection :=
    ⟨fun c => (R.edit? c).isSome = true, R.opened, R.ended⟩

/-- Code that is not edited stays the same, and each edit writes a fence anew. -/
structure Revision.Sound (R : Revision) (source : List Char) : Prop where
  unedited : ∀ {c c' : Code}, R.edit? c = none → c'.tells = c.tells → c'.value = c.value →
    R.same c c'
  span : ∀ {c : Code} {e : Edit}, R.edit? c = some e → e.span = c.span
  replaces : ∀ {o : Outline} {p d stop : Nat} {op : FenceOpening} {first : RawLine}
    {inner more : List RawLine}
    {text : List (List Char)} {left front opening tail : List Char} {e : Edit},
    EditedFence (R.selection.shift d) o p op first inner more stop text left →
    OpensAt o p op first front opening →
    flat (first :: inner) = front ++ (opening ++ tail) ++ left →
    R.edit? ((op.code stop text).shift d) = some e →
    Text.slice source ((op.code stop text).shift d).span = some (opening ++ tail) →
    (((op.code stop text).shift d).span.stop = byteLength source → more = []) →
    ∃ new op' fence text',
      Replaces o p op first inner more left front e.content new op' fence text' ∧
      ∀ d', R.same ((op.code stop text).shift d)
        ((op'.code (p + byteLength (front ++ fence)) text').shift d')

/-! ## Two texts side by side -/

variable {R : Revision} {source S T x : List Char} {v : Outline} {edits : List Edit}
variable {r : RawLine} {rs ys : List RawLine}

/-- Lines and what becomes of them. The text in front of the lines is `S ++ x`, which has become
`T ++ x` by edits, and the outline `v` has read what is left of it, `x`. -/
structure Rewritten (R : Revision) (source S T x : List Char) (v : Outline) (edits : List Edit)
    (rs ys : List RawLine) : Prop where
  wellFormed : WellFormed ys
  head : (flat ys).head? = (flat rs).head?
  edited : Edited source (T ++ x ++ flat ys)
    (edits ++
      ((v.codes (linesAt (byteLength x) rs)).map (Code.shift (byteLength S))).filterMap R.edit?)
  same : List.Forall₂ R.same
    (fenced source ((v.codes (linesAt (byteLength x) rs)).map (Code.shift (byteLength S))))
    (fenced (T ++ x ++ flat ys)
      ((v.codes (linesAt (byteLength x) ys)).map (Code.shift (byteLength T))))

/-- What is edited in the text behind `S`. -/
abbrev Revision.behind (R : Revision) (S : List Char) : Selection :=
    R.selection.shift (byteLength S)

theorem edit?_eq_none {c : Code} (h : ¬ (R.behind S).edited c) :
    R.edit? (c.shift (byteLength S)) = none :=
  Option.not_isSome_iff_eq_none.mp h

theorem filterMap_eq_nil {cs : List Code} (h : ∀ c ∈ cs, ¬ (R.behind S).edited c) :
    (cs.map (Code.shift (byteLength S))).filterMap R.edit? = [] := by
  rw [List.filterMap_map, List.filterMap_eq_nil_iff]
  exact fun c hc => edit?_eq_none (h c hc)

/-- Code that two texts share and that is not edited is the same in both. -/
theorem Revision.Sound.same_shared (hR : R.Sound source) {codes : List Code} {more : List Char}
    (hsource : source = S ++ x ++ more) (h : ∀ c ∈ codes, c.span.stop ≤ byteLength x)
    (hnone : ∀ c ∈ codes, ¬ (R.behind S).edited c) (more' : List Char) :
    List.Forall₂ R.same (fenced source (codes.map (Code.shift (byteLength S))))
      (fenced (T ++ x ++ more') (codes.map (Code.shift (byteLength T)))) := by
  rw [hsource, List.append_assoc T, List.append_assoc S, fenced_shift h, fenced_shift h,
    List.forall₂_map_left_iff, List.forall₂_map_right_iff, List.forall₂_same]
  intro c hc
  exact hR.unedited (edit?_eq_none (hnone c (List.mem_filter.mp hc).1))
    ((c.tells_shift _).trans (c.tells_shift _).symm) rfl

namespace Rewritten

/-- At the end of the text. -/
theorem nil (hR : R.Sound source) (hsource : source = S ++ x)
    (h : EditsFences (R.behind S) (byteLength x) v []) (hedited : Edited S T edits) :
    Rewritten R source S T x v edits [] [] := by
  have hends := Outline.ends_flushed h.before
  have hcodes :
      ∀ lines : List RawLine, lines = [] → v.codes (linesAt (byteLength x) lines) = v.flushed := by
    rintro _ rfl
    rfl
  have hnone : ∀ c ∈ v.flushed, ¬ (R.behind S).edited c := by
    intro c hc
    rcases hends.holds with ⟨-, hnil⟩ | ⟨d, hd, hholds⟩
    · rw [hnil] at hc
      cases hc
    · rw [hd] at hc
      obtain rfl := List.mem_singleton.mp hc
      exact h.leaf c (by rw [hcodes [] rfl, hd]; exact List.mem_cons_self) hholds
  refine ⟨h.wellFormed, rfl, ?_, ?_⟩
  · rw [hcodes [] rfl, filterMap_eq_nil hnone, hsource]
    simpa using hedited.keep x
  · rw [hcodes [] rfl]
    have hsource' : source = S ++ x ++ [] := by rw [hsource, List.append_nil]
    exact hR.same_shared hsource' hends.stop_le hnone (flat [])

/-- What is read behind, maybe by another outline, and in front of it code that comes to its end. -/
theorem behind {S' T' x' : List Char} {w : Outline} {edits' : List Edit} {more zs : List RawLine}
    {codes codes' : List Code} (h : Rewritten R source S' T' x' w edits' more ys)
    (hcodes : (v.codes (linesAt (byteLength x) rs)).map (Code.shift (byteLength S)) =
      codes ++ (w.codes (linesAt (byteLength x') more)).map (Code.shift (byteLength S')))
    (hcodes' : (v.codes (linesAt (byteLength x) zs)).map (Code.shift (byteLength T)) =
      codes' ++ (w.codes (linesAt (byteLength x') ys)).map (Code.shift (byteLength T')))
    (htarget : T ++ x ++ flat zs = T' ++ x' ++ flat ys)
    (hwf : WellFormed zs ∧ (flat zs).head? = (flat rs).head?)
    (hedits : edits' = edits ++ codes.filterMap R.edit?)
    (hsame : List.Forall₂ R.same (fenced source codes) (fenced (T ++ x ++ flat zs) codes')) :
    Rewritten R source S T x v edits rs zs := by
  have hedited := h.edited
  refine ⟨hwf.1, hwf.2, ?_, ?_⟩
  · rw [hcodes, List.filterMap_append, ← List.append_assoc, ← hedits, htarget]
    exact hedited
  · rw [hcodes, hcodes', fenced_append, fenced_append]
    refine List.rel_append hsame ?_
    rw [htarget]
    exact h.same

/-- A line that completes no code that is edited. -/
theorem line (hR : R.Sound source) (hsource : source = S ++ x ++ flat (r :: rs))
    (hwf : WellFormed (r :: rs)) (hbefore : v.Before (byteLength x))
    (hnone : ∀ c ∈ (v.step (r.lineAt (byteLength x))).1, ¬ (R.behind S).edited c)
    (h : Rewritten R source S T (x ++ r.all) (v.step (r.lineAt (byteLength x))).2 edits rs ys) :
    Rewritten R source S T x v edits (r :: rs) (r :: ys) := by
  have hsize : byteLength (x ++ r.all) = byteLength x + r.size := byteLength_append _ _
  have hcodes :
    ∀ before lines, (v.codes (linesAt (byteLength x) (r :: lines))).map (Code.shift before) =
      (v.step (r.lineAt (byteLength x))).1.map (Code.shift before) ++
        ((v.step (r.lineAt (byteLength x))).2.codes (linesAt (byteLength (x ++ r.all)) lines)).map
          (Code.shift before) := by
    intro before lines
    rw [hsize, linesAt, Outline.codes_cons, List.map_append]
  have hstops :
      ∀ c ∈ (v.step (r.lineAt (byteLength x))).1, c.span.stop ≤ byteLength (x ++ r.all) := by
    intro c hc
    have hstop := Outline.stop_le_of_mem_step hbefore hc
    rw [hsize, RawLine.size, RawLine.all, byteLength_append]
    omega
  have hflat :
      ∀ before lines, before ++ x ++ flat (r :: lines) = before ++ (x ++ r.all) ++ flat lines := by
    intro before lines
    simp [RawLine.all]
  rw [hflat] at hsource
  refine h.behind (hcodes _ rs) (hcodes _ ys) (hflat T ys) (hwf.exchange h.wellFormed h.head) ?_ ?_
  · rw [filterMap_eq_nil hnone, List.append_nil]
  · rw [hflat]
    exact hR.same_shared hsource hstops hnone (flat ys)

theorem slice_of_append {source before old after more : List Char} {span : Text.Span}
    (h : source = before ++ old ++ after ++ more)
    (hspan : span = ⟨byteLength before, byteLength (before ++ old)⟩) :
    Text.slice source span = some old :=
  Text.slice_eq_some_iff.mpr ⟨before, after ++ more, by rw [h]; simp, by rw [hspan],
    by rw [hspan, byteLength_append]⟩

/-- The code of lines that start with a fence, where these lines stand in a text. -/
theorem map_shift_codes {d stop place : Nat} {op : FenceOpening} {codes : List Code}
    {text : List (List Char)} {cs : List Container} {left : List Char} {lines : List Line}
    {more : List RawLine} (h : v.codes lines = codes ++ op.code stop text ::
      (behindFence cs place left).codes (linesAt (place + byteLength left) more)) :
    (v.codes lines).map (Code.shift d) = codes.map (Code.shift d) ++
    [(op.code stop text).shift d] ++
      ((behindFence cs 0 left).codes (linesAt (byteLength left) more)).map
      (Code.shift (place + d)) := by
  have hshift : behindFence cs place left = (behindFence cs 0 left).shift place := by
    simp [behindFence, Leaf.shift, Nat.add_comm]
  have hmoved : ∀ cs : List Code, (cs.map (Code.shift place)).map (Code.shift d) =
      cs.map (Code.shift (place + d)) := fun cs => by
    rw [List.map_map]
    exact List.map_congr_left fun c _ => c.shift_shift place d
  rw [h, Nat.add_comm place (byteLength left), hshift, linesAt_shift, Outline.codes_shift,
    List.map_append, List.map_cons, hmoved]
  exact List.append_cons ..

/-- Where fenced code stands in a text. -/
theorem span_shift_code {front : List Char} {op : FenceOpening}
    (hstart : op.start = byteLength x + byteLength front) (before old : List Char)
    (text : List (List Char)) :
    ((op.code (byteLength x + byteLength (front ++ old)) text).shift (byteLength before)).span =
      ⟨byteLength (before ++ (x ++ front)), byteLength (before ++ (x ++ front) ++ old)⟩ := by
  simp only [Code.shift, FenceOpening.code, hstart, byteLength_append, Text.Span.mk.injEq]
  omega

/-- A fence that is edited. Behind it both texts are read with the containers of the fence, and
nothing is left but the line end. -/
theorem fence {op : FenceOpening} {first : RawLine} {inner more : List RawLine} {stop : Nat}
    {text : List (List Char)} {left : List Char} {cs : List Container} (hR : R.Sound source)
    (hsource : source = S ++ x ++ flat (first :: (inner ++ more)))
    (hbefore : v.Before (byteLength x))
    (hnone : ∀ c ∈ (v.step (first.lineAt (byteLength x))).1, ¬ (R.behind S).edited c)
    (hfence : EditedFence (R.behind S) v (byteLength x) op first inner more stop text left)
    (hcs : cs = (v.step (first.lineAt (byteLength x))).2.containers) (hedited : Edited S T edits)
    (h : ∀ (S' T' : List Char) (edits' : List Edit), byteLength S' = stop + byteLength S →
      source = S' ++ left ++ flat more → Edited S' T' edits' →
      ∃ ys, Rewritten R source S' T' left (behindFence cs 0 left) edits' more ys) :
    ∃ ys, Rewritten R source S T x v edits (first :: (inner ++ more)) ys := by
  subst hcs
  obtain ⟨ending, hleaf⟩ := hfence.opens
  obtain ⟨front, opening, hopens⟩ := Outline.exists_opensAt hleaf
  obtain ⟨tail, hflat⟩ := hopens.exists_tail hfence.rest.left_eq
  obtain ⟨e, he⟩ := Option.isSome_iff_exists.mp hfence.edited
  -- the text of the old fence, and where it stands
  have hplace := hfence.rest.place_eq
  have hsize : byteLength x + first.size + byteLength (flat inner) =
      byteLength x + byteLength (flat (first :: inner)) := by
    rw [flat_cons, ← RawLine.all, byteLength_append, RawLine.size, Nat.add_assoc]
  obtain rfl : stop = byteLength x + byteLength (front ++ (opening ++ tail)) := by
    rw [hsize, hflat, byteLength_append (front ++ (opening ++ tail))] at hplace
    omega
  have hsource' : source = S ++ (x ++ front) ++ (opening ++ tail) ++ left ++ flat more := by
    rw [hsource, ← List.cons_append, flat_append, hflat]
    simp
  have hspan := span_shift_code hopens.start S (opening ++ tail) text
  have hslice := slice_of_append hsource' hspan
  have hmore : ((op.code (byteLength x + byteLength (front ++ (opening ++ tail))) text).shift
      (byteLength S)).span.stop = byteLength source → more = [] := by
    intro hstop
    rw [hspan, hsource', byteLength_append _ (flat more), byteLength_append _ left] at hstop
    dsimp only at hstop
    exact hfence.wellFormed_more.eq_nil (Text.byteLength_eq_zero_iff.mp (by omega))
  obtain ⟨new, op', fence, text', hnew, hsame⟩ := hR.replaces hfence hopens hflat he hslice hmore
  obtain ⟨after, hafter⟩ := hnew.isPrefix
  have hne : opening ++ tail ≠ [] := by simp [hopens.opening_ne_nil]
  have hshift :
    ∀ before new : List Char, byteLength x + byteLength (front ++ new) + byteLength before =
      byteLength (before ++ (x ++ front) ++ new) := by
    intro before new
    simp only [byteLength_append]
    omega
  obtain ⟨ys, hys⟩ := h (S ++ (x ++ front) ++ (opening ++ tail)) (T ++ (x ++ front) ++ e.content)
    (edits ++ [e]) (hshift S (opening ++ tail)).symm hsource'
    ((hedited.keep (x ++ front)).edit hne ((hR.span he).trans hspan))
  -- the code of both texts: what comes to its end before, the fence, and what comes behind it
  have hcodes := map_shift_codes (d := byteLength S) hfence.codes_eq
  have hcodes' := map_shift_codes (d := byteLength T) (hnew.codes ys)
  rw [hshift] at hcodes hcodes'
  have htarget :
      T ++ x ++ flat (new ++ ys) = T ++ (x ++ front) ++ e.content ++ left ++ flat ys := by
    rw [flat_append, hnew.flat_eq]
    simp
  refine ⟨new ++ ys,
    hys.behind hcodes hcodes' htarget (hnew.wellFormed ys hys.wellFormed hys.head) ?_ ?_⟩
  · rw [List.filterMap_append, filterMap_eq_nil hnone, List.nil_append, List.filterMap_cons_some he,
      List.filterMap_nil]
  · have hold : 3 ≤ leadingRun op.marker (opening ++ tail) :=
      Nat.le_trans (hopens.length ▸ hopens.lengthMin) (leadingRun_le_append _ _ _)
    have hfenced := isFenced_of_marker hslice hopens.marker hold
    have htarget' :
        T ++ x ++ flat (new ++ ys) = T ++ (x ++ front) ++ fence ++ after ++ (left ++ flat ys) := by
      rw [htarget, ← hafter]
      simp
    have hfenced' := isFenced_of_marker
      (slice_of_append htarget' (span_shift_code hnew.start T fence text')) hopens.marker
        hnew.marked
    rw [fenced_append, fenced_append, fenced_singleton hfenced, fenced_singleton hfenced']
    exact List.rel_append (hR.same_shared hsource (Outline.stop_le_of_opening hbefore hleaf) hnone
      (flat (new ++ ys))) (.cons (hsame _) .nil)

end Rewritten

/-- **A text whose fences are written anew** holds the code of the old one, as the revision changes
it. -/
theorem exists_rewritten (hR : R.Sound source) (rs : List RawLine) {S T x : List Char} {v : Outline}
    {edits : List Edit} (hsource : source = S ++ x ++ flat rs)
    (h : EditsFences (R.behind S) (byteLength x) v rs) (hedited : Edited S T edits) :
    ∃ ys, Rewritten R source S T x v edits rs ys := by
  -- a fence is read at once, so the induction is on the number of lines that are left
  induction hn : rs.length using Nat.strong_induction_on generalizing rs S T x v edits with
  | _ n ih =>
  subst hn
  cases rs with
  | nil => exact ⟨[], .nil hR (by simpa using hsource) h hedited⟩
  | cons r rest =>
    obtain ⟨hnone, hrest | ⟨op, inner, more, stop, text, left, rfl, hfence, hmore⟩⟩ :=
      h.line_or_fence
    · have hsize : byteLength (x ++ r.all) = byteLength x + r.size := byteLength_append _ _
      rw [← hsize] at hrest
      obtain ⟨ys, hys⟩ :=
        ih rest.length (Nat.lt_succ_self _) rest (by rw [hsource]; simp [RawLine.all]) hrest
        hedited rfl
      exact ⟨r :: ys, .line hR hsource h.wellFormed h.before hnone hys⟩
    · refine Rewritten.fence hR hsource h.before hnone hfence rfl hedited ?_
      intro S' T' edits' hlength hsource' hedited'
      have hfewer : more.length < (r :: (inner ++ more)).length := by
        simp only [List.length_cons, List.length_append]
        omega
      refine ih more.length hfewer more hsource' ?_ hedited' rfl
      -- the lines behind the fence are read anew from the text that stands in front of them
      have hshift : behindFence (v.step (r.lineAt (byteLength x))).2.containers stop left =
          (behindFence (v.step (r.lineAt (byteLength x))).2.containers 0 left).shift stop := by
        simp [behindFence, Leaf.shift, Nat.add_comm]
      rw [Nat.add_comm stop, hshift] at hmore
      have hmoved := hmore.shift
      rw [Revision.behind, Selection.shift_shift] at hmoved
      rw [Revision.behind, hlength]
      exact hmoved

end LiveDoc.Markdown
