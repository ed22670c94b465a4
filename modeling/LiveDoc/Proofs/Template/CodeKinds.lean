import LiveDoc.Proofs.Layout.KeptInfos

/-!
# Which code is filled

Fenced code starts with its marker, and indented code starts with a space. So the text of code tells
of which kind it was read, and with it which code of a text the templates are
(`Template.fill_ofNode`).

* **step** — code that starts on a line is fenced code that is open behind it, or starts with a
  space of the line (`Outline.Turns.exists_begins`, `Leaf.Begins.cases_isFence`), so the text tells
  its kind (`Outline.tellsKind_step`);
* **run** — the text tells the kind of all code that lines give out
  (`Outline.tellsKind_of_mem_codes`);
* **result** — the code of a text that starts with a marker is the code whose lines open a fence
  (`Document.fencedCode_ofMarkdown`).
-/

namespace LiveDoc

open Layout (isGap leadingRun_le_append)
open Text (CharAt Span byteLength byteLength_append slice)

namespace Markdown

variable {p n : Nat} {o : Outline} {leaf next : Leaf} {gs : List Glyph} {codes new : List Code}
variable {c : Code}

/-- What a text shows of code, if it is fenced and if it is not: the marker of a fence, or a blank
at the place where it starts. -/
def TellsKind (text : List Char) (span : Span) : (fenced : Bool) → Prop
  | true => ∃ old, slice text span = some old ∧ Tree.startsFence old = true
  | false => ∃ d, CharAt text span.start d ∧ isGap d = true

/-! ## What starts on a line -/

/-- A glyph that is a space stands where a space or a tab does. -/
theorem exists_charAt_of_isSpace {place column : Nat} {text : List Char} {g : Glyph}
    (hg : g ∈ glyphsAt place column text) (hspace : g.isSpace = true) :
    ∃ q d, g.start = place + q ∧ CharAt text q d ∧ isGap d = true := by
  induction text generalizing place column with
  | nil => cases hg
  | cons c rest ih =>
    rw [glyphsAt] at hg
    split at hg
    · next hc =>
      rcases List.mem_append.mp hg with hcolumn | hrest
      · refine ⟨0, c, ?_, Text.charAt_cons.mpr (Or.inl ⟨rfl, rfl⟩), by rw [hc]; rfl⟩
        obtain ⟨i, -, rfl⟩ := List.mem_map.mp hcolumn
        dsimp only
        split <;> rfl
      · obtain ⟨q, d, hstart, hchar, hd⟩ := ih hrest
        refine ⟨c.utf8Size + q, d, ?_, Text.charAt_cons.mpr (Or.inr ⟨q, rfl, hchar⟩), hd⟩
        rw [hstart, hc, Nat.add_assoc]
        rfl
    · rcases List.mem_cons.mp hg with rfl | hrest
      · exact ⟨0, c, rfl, Text.charAt_cons.mpr (Or.inl ⟨rfl, rfl⟩), hspace⟩
      · obtain ⟨q, d, hstart, hchar, hd⟩ := ih hrest
        refine ⟨c.utf8Size + q, d, ?_, Text.charAt_cons.mpr (Or.inr ⟨q, rfl, hchar⟩), hd⟩
        rw [hstart, Nat.add_assoc]

/-- Code that starts on a line is fenced code that is open behind it, or starts with a space of
it. -/
theorem Leaf.Begins.cases_isFence (h : Leaf.Begins p n gs new next) (hc : c ∈ new ∨ next.Holds c) :
    (new = [] ∧ next.Holds c ∧ ∃ op ending, next = .fence op [] ending) ∨
      next.isFence = false ∧ ∃ g ∈ gs, g.isSpace = true ∧ g.start = c.span.start := by
  cases h with
  | nothing hnone =>
    rcases hc with hc | hc
    · cases hc
    · rw [hc.codeStart?] at hnone
      cases hnone
  | fence =>
    rcases hc with hc | hc
    · cases hc
    · exact Or.inl ⟨rfl, hc, _, _, rfl⟩
  | indented _ _ _ hspace =>
    rcases hc with hc | rfl
    · cases hc
    · exact Or.inr ⟨rfl, hspace⟩
  | single _ _ _ hspace =>
    rcases hc with hc | hc
    · rw [List.mem_singleton.mp hc]
      exact Or.inr ⟨rfl, hspace⟩
    · exact hc.elim

namespace Outline

/-- Code that starts behind the start of a line is begun by the line, if it comes out of it or is
open behind it. -/
theorem Turns.exists_begins (h : Turns p n gs leaf codes next)
    (hleaf : ∀ c, leaf.Holds c → c.span.start < p) (hc : c ∈ codes ∨ next.Holds c)
    (hle : p ≤ c.span.start) : ∃ new, Leaf.Begins p n gs new next ∧ (c ∈ codes → c ∈ new) := by
  have hnot : ¬ leaf.Holds c := fun hholds => Nat.not_le_of_lt (hleaf c hholds) hle
  cases h with
  | goesOn hon =>
    rcases hc with hc | hc
    · cases hc
    · exact absurd (hon.holds hc) hnot
  | @ends ended new _ hends hbegins =>
    refine ⟨new, hbegins, fun hmem => ?_⟩
    rcases List.mem_append.mp hmem with hmem | hmem
    · rcases hends.holds with ⟨-, rfl⟩ | ⟨d, rfl, hd⟩
      · cases hmem
      · rw [List.mem_singleton.mp hmem] at hnot
        exact absurd hd hnot
    · exact hmem

/-- What is open behind a line starts in front of the next one. -/
theorem Turns.lt_of_holds (h : Turns p n gs leaf codes next) (hle : p ≤ n)
    (hleaf : ∀ c, leaf.Holds c → c.span.start < p) (hc : next.Holds c) : c.span.start < n := by
  cases h with
  | goesOn hon => exact Nat.lt_of_lt_of_le (hleaf c (hon.holds hc)) hle
  | ends _ hbegins => exact (hbegins.le_start.2 c hc).2

/-! ## What the text shows -/

variable {x : List Char} {r : RawLine} {rest : List RawLine}

/-- The code of a fence that a line opens starts with its marker. -/
theorem tellsKind_fence {op : FenceOpening} {ending : List Char} (ho : o.Before (byteLength x))
    (hfence : (o.step (r.lineAt (byteLength x))).2.leaf = .fence op [] ending)
    (hc : c ∈ (o.step (r.lineAt (byteLength x))).2.codes (linesAt (byteLength x + r.size) rest))
    (hholds : (o.step (r.lineAt (byteLength x))).2.leaf.Holds c)
    (hlt : c.span.start < byteLength x + r.size) :
    TellsKind (x ++ flat (r :: rest)) c.span true := by
  obtain ⟨front, opening, hopens⟩ := exists_opensAt hfence
  obtain ⟨inner, more, stop, text, left, rfl, hrest⟩ := exists_restOfFence_opening hfence rest
  obtain ⟨tail, hflat⟩ := hopens.exists_tail hrest.left_eq
  obtain rfl : c = op.code stop text :=
    eq_head_of_holds (before_step_lineAt ho r) hrest.codes hc hholds hlt
  have hplace := hrest.place_eq
  have hstart := hopens.start
  have hwhole :
      x ++ flat (r :: (inner ++ more)) = x ++ front ++ (opening ++ tail) ++ left ++ flat more := by
    rw [← List.cons_append, flat_append, hflat]
    simp
  have hlines := congrArg byteLength hflat
  rw [flat_cons, ← RawLine.all] at hlines
  simp only [byteLength_append] at hlines
  have hspan : (op.code stop text).span =
      ⟨byteLength (x ++ front), byteLength (x ++ front ++ (opening ++ tail))⟩ := by
    rw [RawLine.size] at hplace
    simp only [FenceOpening.code, hstart, byteLength_append, Span.mk.injEq, true_and]
    omega
  refine ⟨opening ++ tail, Rewritten.slice_of_append hwhole hspan,
    startsFence_of_marker hopens.marker ?_⟩
  exact Nat.le_trans (hopens.length ▸ hopens.lengthMin) (leadingRun_le_append _ _ _)

/-- **One line.** The code that starts on a line starts with the marker of a fence if a fence is
open behind the line, and with a blank if none is. -/
theorem tellsKind_step (ho : o.Before (byteLength x))
    (hleaf : ∀ c, o.leaf.Holds c → c.span.start < byteLength x)
    (hc : c ∈ o.codes (linesAt (byteLength x) (r :: rest))) (hle : byteLength x ≤ c.span.start)
    (hlt : c.span.start < byteLength x + r.size) :
    TellsKind (x ++ flat (r :: rest)) c.span (o.step (r.lineAt (byteLength x))).2.leaf.isFence := by
  rw [linesAt, codes_cons] at hc
  -- code of the lines behind it starts there, unless it is open behind the line
  have hstarted : c ∈ (o.step (r.lineAt (byteLength x))).1 ∨
      (o.step (r.lineAt (byteLength x))).2.leaf.Holds c := by
    refine (List.mem_append.mp hc).imp id fun hrest => ?_
    obtain ⟨ended, new, hcodes, hfirst, hnew⟩ := codes_cases (before_step_lineAt ho r) rest
    rw [hcodes] at hrest
    rcases List.mem_append.mp hrest with hmem | hmem
    · rcases hfirst with ⟨-, rfl⟩ | ⟨d, rfl, hd⟩
      · cases hmem
      · rwa [List.mem_singleton.mp hmem]
    · exact absurd (hnew c hmem) (Nat.not_le_of_lt hlt)
  obtain ⟨new, hbegins, hnew⟩ := (turns_step_lineAt ho r).exists_begins hleaf hstarted hle
  rcases hbegins.cases_isFence (hstarted.imp hnew id) with
    ⟨rfl, hholds, op, ending, hfence⟩ | ⟨hnone, g, hg, hspace, hstart⟩
  · have hrest :=
      (List.mem_append.mp hc).resolve_left fun hmem => absurd (hnew hmem) List.not_mem_nil
    have hopen : (o.step (r.lineAt (byteLength x))).2.leaf.isFence = true := by rw [hfence]; rfl
    rw [hopen]
    exact tellsKind_fence ho hfence hrest hholds hlt
  · obtain ⟨q, d, hq, hchar, hd⟩ := exists_charAt_of_isSpace hg hspace
    rw [hnone, flat_cons]
    refine ⟨d, Text.charAt_append.mpr (Or.inr ⟨q, by rw [← hstart, hq], ?_⟩), hd⟩
    exact Text.charAt_append.mpr (Or.inl (Text.charAt_append.mpr (Or.inl hchar)))

/-- **What the text shows of code.** The code to come starts with the marker of a fence if a fence
is open behind the line that it starts on, and with a blank if none is. -/
theorem tellsKind_of_mem_codes (rs : List RawLine) (ho : o.Before (byteLength x))
    (hleaf : ∀ c, o.leaf.Holds c → c.span.start < byteLength x)
    (hc : c ∈ o.codes (linesAt (byteLength x) rs)) (hle : byteLength x ≤ c.span.start) :
    TellsKind (x ++ flat rs) c.span
      (o.readTo (c.span.start + 1) (linesAt (byteLength x) rs)).leaf.isFence := by
  induction rs generalizing o x with
  | nil =>
    -- what is left is the code of the leaf, which starts before
    have hends : o.leaf.Ends (byteLength x) (o.codes (linesAt (byteLength x) [])) := ends_flushed ho
    rcases hends.holds with ⟨-, hnil⟩ | ⟨d, hd, hholds⟩
    · rw [hnil] at hc
      cases hc
    · rw [hd] at hc
      rw [← List.mem_singleton.mp hc] at hholds
      exact absurd hle (Nat.not_le_of_lt (hleaf c hholds))
  | cons r rest ih =>
    rw [EditsFences.readTo_cons (Nat.lt_succ_of_le hle)]
    rcases Nat.lt_or_ge c.span.start (byteLength x + r.size) with hlt | hge
    · -- it starts on this line
      rw [readTo_of_le hlt]
      exact tellsKind_step ho hleaf hc hle hlt
    · -- it starts on a later one
      have hturns := turns_step_lineAt ho r
      have hbefore := before_step_lineAt ho r
      have htext := r.byteLength_text_le (byteLength x)
      rw [next_lineAt] at htext
      rw [linesAt, codes_cons] at hc
      have hrest := (List.mem_append.mp hc).resolve_left fun hmem => by
        obtain ⟨new, hbegins, hnew⟩ := hturns.exists_begins hleaf (Or.inl hmem) hle
        have hlt := (hbegins.le_start.1 c (hnew hmem)).2
        omega
      have hsize : byteLength x + r.size = byteLength (x ++ r.all) :=
        (byteLength_append x r.all).symm
      have hflat : x ++ flat (r :: rest) = x ++ r.all ++ flat rest := by
        simp [RawLine.all]
      rw [hsize] at hbefore hrest hge ⊢
      rw [hflat]
      refine ih hbefore (fun d hd => ?_) hrest hge
      have hlt := hturns.lt_of_holds (Nat.le_add_right _ _) hleaf hd
      omega

end Outline

end Markdown

/-! ## The code of a text -/

namespace Document

open Markdown (Code Node Outline Reader TellsKind dropMark isFenceOpen linesAt rawLines)

variable {source : String} {c : Code}

/-- The text shows of each block of code whether its lines were read as a fence. -/
theorem tellsKind_code (hc : c ∈ codes source) :
    TellsKind source.toList c.span (isFenceOpen source.toList (c.span.start + 1)) := by
  have hbefore : Outline.empty.Before (byteLength (startMark source.toList)) :=
    ⟨Nat.zero_le _, Nat.zero_le _, fun _ _ _ _ hnone => Markdown.Leaf.noConfusion hnone⟩
  have hmem : c.shift 0 ∈ Outline.empty.codes
      (linesAt (byteLength (startMark source.toList)) (rawLines (dropMark source.toList))) := by
    rw [codes_rawLines]
    exact List.mem_map_of_mem hc
  -- nothing is open in front of the first line, so all code starts behind its start
  obtain ⟨ended, new, hcodes, hfirst, hnew⟩ :=
    Outline.codes_cases hbefore (rawLines (dropMark source.toList))
  have hle : byteLength (startMark source.toList) ≤ c.span.start := by
    rcases hfirst with ⟨-, rfl⟩ | ⟨d, -, hd⟩
    · rw [hcodes, List.nil_append] at hmem
      exact hnew (c.shift 0) hmem
    · exact hd.elim
  have htells := Outline.tellsKind_of_mem_codes _ hbefore (fun d hd => hd.elim) hmem hle
  rw [Markdown.flat_rawLines, startMark_append_dropMark, readTo_rawLines] at htells
  have hopen : ((Reader.upTo source.toList (c.span.start + 1)).outline.shift 0).leaf.isFence =
      isFenceOpen source.toList (c.span.start + 1) := Markdown.Leaf.isFence_shift 0 _
  rwa [← hopen]

/-- **Fenced code.** The code of a text that starts with a marker is the code whose lines open a
fence. -/
theorem isFencedCode_iff (hc : c ∈ codes source) :
    Tree.IsFencedCode source.toList c.node ↔
      isFenceOpen source.toList (c.span.start + 1) = true := by
  have htells := tellsKind_code hc
  cases hopen : isFenceOpen source.toList (c.span.start + 1) with
  | true =>
    rw [hopen] at htells
    exact ⟨fun _ => rfl, fun _ => htells⟩
  | false =>
    rw [hopen] at htells
    obtain ⟨d, hchar, hd⟩ := htells
    refine ⟨fun hfenced => ?_, nofun⟩
    -- the blank stands where the marker would
    obtain ⟨text, htext, hstarts⟩ := hfenced
    obtain ⟨before, after, hparts⟩ := Text.slice_eq_some_iff.mp htext
    have hhead : text.head? = some d := by
      rw [hparts.start, hparts.whole] at hchar
      rcases Text.charAt_append.mp hchar with hlt | ⟨q, hq, hbehind⟩
      · exact absurd hlt.lt (Nat.lt_irrefl _)
      · obtain rfl : q = 0 := by omega
        have hfirst := hbehind.head?
        rcases Tree.head?_of_startsFence hstarts with hmarker | hmarker <;>
          rw [List.head?_append, hmarker] at hfirst <;> rw [hmarker, ← hfirst] <;> rfl
    rcases Tree.head?_of_startsFence hstarts with hmarker | hmarker <;>
      rw [hmarker] at hhead <;> cases hhead <;> cases hd

/-- The fenced code of a text is the code that was read as a fence. -/
theorem fencedCode_ofMarkdown (source : String) :
    (Node.ofMarkdown source.toList).codes.filter (Tree.IsFencedCode source.toList ·) =
      ((codes source).filter fun c => isFenceOpen source.toList (c.span.start + 1)).map
      Code.node := by
  rw [Markdown.codes_ofMarkdown, List.filter_map]
  refine congrArg (List.map Code.node) (List.filter_congr fun c hc => ?_)
  rw [Function.comp_apply, Bool.eq_iff_iff, decide_eq_true_iff]
  exact isFencedCode_iff hc

end Document

/-! ## The code that is filled -/

namespace Template

open Markdown (Code Node isFenceOpen)
open LiveDoc.Tree (IsFencedCode ShowsFence)

/-- **Templates are filled fence by fence.** In the tree of any node of a text, the walk evaluates
the bodies of the fences that are taken for templates and are not blank, each once and in document
order, up to the first that fails. It changes nothing outside of fences. When no template fails, the
tree is the one that was read with every fence filled on its own.

The fences are the code that is fenced and the code that shows a fence behind spaces. So indented
code is neither evaluated nor changed exactly when none of it shows a fence. In a text that was
read, the fenced code is the code whose lines open a fence; all other code starts with a blank
(`Document.tellsKind_code`). -/
theorem fill_ofNode (ns : Namespace) (options : Options) (source : List Char) (n : Node) :
    let t := Tree.ofNode source n
    let env := environment ns options t
    (∃ calls, (fillM options (logged env) t).run [] = (fill ns options t, calls) ∧
      InOrder env (expressions options t) (t.mapFences (filledFence options env))
        (fill ns options t) calls) ∧
    (fill ns options t).1.outside = t.outside ∧
    t.fences = (n.codes.filter fun c => IsFencedCode source c ∨ ShowsFence source c).map
      (Tree.ofNode source) ∧
    (t.fences = (n.codes.filter (IsFencedCode source ·)).map (Tree.ofNode source) ↔
      ∀ c ∈ n.codes, ¬ ShowsFence source c) ∧
    ∀ text : String, (Node.ofMarkdown text.toList).codes.filter (IsFencedCode text.toList ·) =
      ((Document.codes text).filter fun c => isFenceOpen text.toList (c.span.start + 1)).map
        Code.node := by
  have hread := Tree.asRead_ofNode source n
  exact ⟨fill_inOrder ns options hread, outside_fill ns options hread, Tree.fences_eq source n,
    Tree.fences_eq_iff source n, Document.fencedCode_ofMarkdown⟩

/-- Indented code that shows a fence is evaluated, and no code of the text is fenced. -/
theorem fill_indentedFence :
    let source := "    ```\n".toList
    let n := Node.ofMarkdown source
    let t := Tree.ofNode source n
    n.codes.filter (IsFencedCode source ·) = [] ∧
      ((fillM .standard (logged (environment .empty .standard t)) t).run []).2 = ["```"] ∧
      (fill .empty .standard t).2 ≠ none := by
  decide +kernel

end Template

end LiveDoc
