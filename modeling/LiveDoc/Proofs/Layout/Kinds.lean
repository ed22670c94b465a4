import LiveDoc.Proofs.Layout.Splice
import LiveDoc.Proofs.Layout.Untouched
import LiveDoc.Proofs.Layout.WordLines

/-!
# Kinds of blocks in documents that are laid out

The writing of a document does not always keep the kinds of its blocks: a line of a paragraph may
become the start of another block when the words on it, or the spaces in front of it, change
(`wrap_makes_html`, `normalize_makes_heading`). It keeps them where every line of a new text still
reads as text (`blockNames_render`).
-/

namespace LiveDoc

open Layout (Edit Edited Edits Input Relaid StartsParagraph StaysText)
open Markdown
  (Block Element Labels Line Mark Node RawLine Reader byteOrderMark dropMark flat glyphsAt
  groupNodes groupsOf linesAt marks rawLines startOfText)
open Text (Span byteLength)

/-! ## The blocks of a document one by one -/

namespace Markdown

/-- What is found in the nodes of blocks, unless it is found in lists and their items. -/
theorem filterMap_groupNodes {α : Type} {F : Node → Option α}
    (hlist : ∀ span ns, F (.element .list span ns) = none)
    (hitem : ∀ span ns, F (.element .listItem span ns) = none) (labels : Labels) (bs : List Block) :
    ((groupsOf labels false bs).flatMap groupNodes).filterMap F =
      bs.filterMap fun b => F (b.node labels false) := by
  have hgroup : ∀ (marker : Char) (ns : List Node),
      (groupNodes (some marker, ns)).filterMap F = [] := by
    intro marker ns
    simp [groupNodes, hlist]
  have hadd : ∀ (marker : Option Char) (n : Node) (gs : List (Option Char × List Node)),
      (marker.isSome = true → F n = none) →
      ((addItem marker n gs).flatMap groupNodes).filterMap F =
        (F n).toList ++ (gs.flatMap groupNodes).filterMap F := by
    intro marker n gs hn
    have halone : (groupNodes (marker, [n])).filterMap F = (F n).toList := by
      cases marker with
      | none => simp [groupNodes, List.filterMap_cons]; cases F n <;> rfl
      | some marker => rw [hgroup, hn rfl]; rfl
    cases gs with
    | nil => simp [addItem, halone]
    | cons g rest =>
      obtain ⟨m, ns⟩ := g
      rw [addItem]
      split
      · next hmerge =>
        rw [Bool.and_eq_true, decide_eq_true_eq] at hmerge
        obtain ⟨rfl, hsome⟩ := hmerge
        obtain ⟨c, rfl⟩ := Option.isSome_iff_exists.mp hsome
        rw [List.flatMap_cons, List.flatMap_cons, List.filterMap_append, List.filterMap_append,
          hgroup, hgroup, hn rfl]
        rfl
      · rw [List.flatMap_cons, List.filterMap_append, halone]
  induction bs with
  | nil => rfl
  | cons b rest ih =>
    rw [groupsOf_cons, hadd, ih, List.filterMap_cons]
    · cases F (b.node labels false) <;> rfl
    · intro hmarker
      cases b with
      | container c span children =>
        cases c with
        | item m width bare => rw [Block.node]; exact hitem _ _
        | _ => cases hmarker
      | _ => cases hmarker

/-- The node of an item is one, and no other node. -/
theorem Block.exists_item {b : Block} {marker : Char} (h : b.marker = some marker) (labels : Labels)
    (first : Bool) : ∃ span ns, b.node labels first = .element .listItem span ns := by
  cases b with
  | container c span children =>
    cases c with
    | item m width bare => exact ⟨_, _, by rw [node]⟩
    | _ => cases h
  | _ => cases h

theorem addItem_none (n : Node) (gs : List (Option Char × List Node)) :
    addItem none n gs = (none, [n]) :: gs := by
  cases gs with
  | nil => rfl
  | cons g rest => simp [addItem]

theorem isChain_cons_of_forall {α : Type} {R : α → α → Prop} {a : α} (h : ∀ b, R a b) {l : List α}
    (hl : l.IsChain R) : (a :: l).IsChain R :=
  List.isChain_cons.mpr ⟨fun b _ => h b, hl⟩

/-- Neighbouring blocks are neighbouring nodes, but for lists and their items. -/
theorem isChain_of_groupNodes {R : Node → Node → Prop}
    (hlist : ∀ span ns n, R (.element .list span ns) n)
    (hitem : ∀ span ns n, R (.element .listItem span ns) n ∧ R n (.element .listItem span ns))
    (labels : Labels) {bs : List Block}
    (h : ((groupsOf labels false bs).flatMap groupNodes).IsChain R) :
    bs.IsChain fun b b' => R (b.node labels false) (b'.node labels false) := by
  induction bs with
  | nil => exact .nil
  | cons b rest ih =>
    rw [groupsOf_cons] at h
    refine List.isChain_cons.mpr ⟨fun b' hb' => ?_, ih ?_⟩
    · cases hmarker : b.marker with
      | some marker =>
        obtain ⟨span, ns, hnode⟩ := b.exists_item hmarker labels false
        rw [hnode]
        exact (hitem span ns _).1
      | none =>
        cases hmarker' : b'.marker with
        | some marker =>
          obtain ⟨span, ns, hnode⟩ := b'.exists_item hmarker' labels false
          rw [hnode]
          exact (hitem span ns _).2
        | none =>
          obtain ⟨more, rfl⟩ := List.head?_eq_some_iff.mp hb'
          rw [groupsOf_cons, hmarker, hmarker', addItem_none, addItem_none] at h
          exact (List.isChain_cons_cons.mp h).1
    · cases hmarker : b.marker with
      | none =>
        rw [hmarker, addItem_none] at h
        exact h.tail
      | some marker =>
        rw [hmarker] at h
        generalize groupsOf labels false rest = gs at h ⊢
        cases gs with
        | nil => exact .nil
        | cons g gs =>
          obtain ⟨m, ns⟩ := g
          rw [addItem] at h
          split at h
          · next hmerge =>
            rw [Bool.and_eq_true, decide_eq_true_eq] at hmerge
            obtain ⟨rfl, -⟩ := hmerge
            exact isChain_cons_of_forall (hlist _ _) h.tail
          · exact h.tail

end Markdown

namespace Markdown

/-- No two neighbouring lines of a text draw the lines of a table. -/
def RulesApart (s : List Char) : Prop :=
  (rawLines (dropMark s)).IsChain fun p q =>
    ¬ (Table.drawsRule (glyphsAt 0 0 p.text) = true ∧ Table.drawsRule (glyphsAt 0 0 q.text) = true)

instance (s : List Char) : Decidable (RulesApart s) :=
    inferInstanceAs (Decidable (List.IsChain _ _))

end Markdown

namespace Document

/-- The blocks of a text. -/
def blocks (source : String) : List Block := Block.ofLines (Line.ofText source.toList)

/-- The edit that lays out a block, if it is a paragraph and that changes it. -/
def blockEdit? (options : Layout.Options) (source : String) (b : Block) : Option Edit :=
  Layout.paragraphEdit? options source.toList (Layout.lineEnding none source.toList)
    (Tree.ofNode source.toList (b.node (Markdown.labelsOf (blocks source)) false))

theorem paragraphEdit?_element {options : Layout.Options} {source ending : List Char} {e : Element}
    (he : e ≠ .paragraph) (span : Option Span) (ns : List Node) :
    Layout.paragraphEdit? options source ending (Tree.ofNode source (.element e span ns)) =
      none := by
  cases e <;> first | exact absurd rfl he | rfl

variable {options : Layout.Options} {source : String}

theorem edits_blockEdit? (options : Layout.Options) (source : String) :
    Edits (blockEdit? options source) := by
  constructor
  · intro b hb
    unfold blockEdit?
    cases b with
    | container c span children => cases c <;> exact paragraphEdit?_element (by decide) _ _
    | text e span gs =>
      have he : e ≠ .paragraph := by
        rintro rfl
        cases hb
      rw [Block.node, Markdown.textNode]
      split <;> exact paragraphEdit?_element he _ _
    | bare e span =>
      have he : e ≠ .paragraph := by
        rintro rfl
        cases hb
      exact paragraphEdit?_element he _ _
    | definition label span => exact paragraphEdit?_element (by decide) _ _
    | code span language details value =>
      rw [Block.node, Tree.ofNode]
      cases Tree.isFenced source.toList (some span) <;> rfl
    | table span rows => exact paragraphEdit?_element (by decide) _ _
  · intro span gs e he
    unfold blockEdit? at he
    rw [Block.node, Markdown.textNode] at he
    simp only [Bool.false_and, Bool.false_eq_true, if_false] at he
    obtain ⟨-, old, hlaid, -⟩ := Layout.paragraphEdit?_eq_some_iff.mp he
    have hspan := hlaid.placed
    rw [Tree.ofNode] at hspan
    · exact (Option.some.inj hspan).symm
    · simp

/-- The edits of a document that was read are those of its blocks. -/
theorem edits_ofMarkdown (options : Layout.Options) (source : String) :
    (ofMarkdown source).edits options = (blocks source).filterMap (blockEdit? options source) := by
  have hread : (ofMarkdown source).root.AsRead := Tree.asRead_ofNode _ _
  have hfences : (ofMarkdown source).root.nodes.filterMap
      (Layout.fenceEdit? source.toList (Layout.lineEnding none source.toList)) = [] := by
    rw [Tree.nodes_eq_preorder, List.filterMap_eq_nil_iff]
    exact fun t ht => fenceEdit?_of_isAsRead (hread t ht) _ _
  have hsource : (ofMarkdown source).source = source := rfl
  unfold edits
  dsimp only
  rw [hsource, hfences, List.nil_append, children_ofMarkdown, List.filterMap_map]
  exact Markdown.filterMap_groupNodes (fun _ _ => paragraphEdit?_element (by decide) _ _)
    (fun _ _ => paragraphEdit?_element (by decide) _ _) _ _

/-- No paragraph that is laid out stands right behind a definition. -/
def DefinitionsApart (d : Document) (options : Layout.Options) : Prop :=
  d.root.children.IsChain fun t t' => t.isNamed "definition" = true →
    Layout.paragraphEdit? options d.source.toList (Layout.lineEnding none d.source.toList) t' = none

instance (d : Document) (options : Layout.Options) : Decidable (d.DefinitionsApart options) :=
  inferInstanceAs (Decidable (List.IsChain _ _))

theorem isNamed_of_defines {b : Block} (h : b.Defines) (labels : Labels) (source : List Char) :
    (Tree.ofNode source (b.node labels false)).isNamed "definition" = true := by
  have hname : (Tree.ofNode source (b.node labels false)).name = "definition" := by
    rw [Block.name_node, h]
    rfl
  unfold Tree.name at hname
  unfold Tree.isNamed
  cases hkind : (Tree.ofNode source (b.node labels false)).kind with
  | other name =>
    rw [hkind] at hname
    simpa using hname
  | _ =>
    rw [hkind] at hname
    simp at hname

theorem editsApart_blocks (h : (ofMarkdown source).DefinitionsApart options) :
    Layout.EditsApart (blockEdit? options source) (blocks source) := by
  unfold DefinitionsApart at h
  rw [children_ofMarkdown, List.isChain_map] at h
  have hlist : ∀ (span : Option Span) (ns : List Node),
      (Tree.ofNode source.toList (.element .list span ns)).isNamed "definition" = false :=
    fun _ _ => rfl
  have hitem : ∀ (span : Option Span) (ns : List Node),
      (Tree.ofNode source.toList (.element .listItem span ns)).isNamed "definition" = false :=
    fun _ _ => rfl
  refine (Markdown.isChain_of_groupNodes ?_ ?_ _ h).imp fun b b' hboth hdefines =>
    hboth (isNamed_of_defines hdefines _ _)
  · intro span ns _ hnamed
    rw [hlist] at hnamed
    cases hnamed
  · intro span ns _
    refine ⟨fun hnamed => ?_, fun _ => paragraphEdit?_element (by decide) _ _⟩
    rw [hitem] at hnamed
    cases hnamed

/-- What a text starts with in front of its lines. -/
def startMark (s : List Char) : List Char := if s.head? = some byteOrderMark then [byteOrderMark]
    else []

theorem startMark_append_dropMark (s : List Char) : startMark s ++ dropMark s = s := by
  unfold startMark dropMark
  by_cases h : s.head? = some byteOrderMark
  · obtain ⟨rest, rfl⟩ := List.head?_eq_some_iff.mp h
    rw [if_pos h, if_pos h]
    rfl
  · rw [if_neg h, if_neg h, List.nil_append]

theorem startMark_cases (s : List Char) : startMark s = [] ∨ startMark s = [byteOrderMark] := by
  unfold startMark
  split
  · exact Or.inr rfl
  · exact Or.inl rfl

theorem head?_dropMark {s : List Char} (h : startMark s = []) :
    (dropMark s).head? ≠ some byteOrderMark := by
  intro hhead
  unfold startMark at h
  split at h
  · cases h
  · next hno =>
    rw [dropMark, if_neg hno] at hhead
    exact hno hhead

theorem byteLength_startMark (s : List Char) : byteLength (startMark s) = startOfText s := by
  unfold startMark startOfText
  split <;> rfl

/-- A text that is put together from what it starts with and its lines. -/
theorem startMark_append {mark text : List Char} (hmark : mark = [] ∨ mark = [byteOrderMark])
    (hstart : mark = [] → text.head? ≠ some byteOrderMark) :
    startMark (mark ++ text) = mark ∧ dropMark (mark ++ text) = text := by
  unfold startMark dropMark
  rcases hmark with rfl | rfl
  · rw [List.nil_append, if_neg (hstart rfl), if_neg (hstart rfl)]
    exact ⟨rfl, rfl⟩
  · exact ⟨rfl, rfl⟩

theorem shows_ofText (s : List Char) :
    Markdown.Shows (byteLength (startMark s)) (rawLines (dropMark s)) (Line.ofText s) := by
  rw [byteLength_startMark]
  exact Markdown.map_shift_ofText s

/-- The marks of the blocks of a text are those of its raw lines. -/
theorem marks_finish {place : Nat} {rs : List RawLine} {lines lines' : List Line}
    (h : Markdown.Shows place rs lines) (h' : Markdown.Shows place rs lines') :
    marks (lines.foldl Reader.step .empty).finish =
      marks (lines'.foldl Reader.step .empty).finish := by
  have hempty : Reader.Follows 0 [] .empty .empty := ⟨rfl, rfl, rfl, rfl, rfl, rfl⟩
  have hfollows := hempty.foldl (h'.trans h.symm)
  have hflush := (hfollows.flush (lines.foldl Reader.step .empty).frames.length).blocks
  rw [Mark.map_shift_zero, List.append_nil] at hflush
  rw [Reader.finish, Reader.finish, Markdown.marks_reverse, Markdown.marks_reverse,
    hfollows.length_frames, hflush]

/-! ## Documents that are laid out -/

/-- An edit gives a paragraph its new text. -/
theorem exists_formatted {e : Edit} (h : e ∈ (ofMarkdown source).edits options) :
    ∃ t ∈ (ofMarkdown source).root.children, ∃ old, t.isNamed "paragraph" = true ∧
      t.span = some e.span ∧ Text.slice source.toList e.span = some old ∧
      Layout.formatted? options (Layout.lineEnding none source.toList) old e.span.start t =
        some e.content := by
  have hread : (ofMarkdown source).root.AsRead := Tree.asRead_ofNode _ _
  rcases List.mem_append.mp h with h | h
  · obtain ⟨t, ht, he⟩ := List.mem_filterMap.mp h
    rw [Tree.nodes_eq_preorder] at ht
    rw [fenceEdit?_of_isAsRead (hread t ht)] at he
    cases he
  · obtain ⟨t, ht, he⟩ := List.mem_filterMap.mp h
    obtain ⟨hnamed, old, hlaid, -⟩ := Layout.paragraphEdit?_eq_some_iff.mp he
    exact ⟨t, ht, old, hnamed, hlaid.placed, hlaid.cut, hlaid.formatted⟩

/-- New text that stays text takes the place of the old one, also where a table is open. -/
theorem relaid_of_staysText {e : Edit} (he : e ∈ (ofMarkdown source).edits options)
    {old : List Char} (hold : Text.slice source.toList e.span = some old)
    (h : StaysText old e.content) : Relaid old e.content := by
  obtain ⟨t, -, old', -, -, hold', hformatted⟩ := exists_formatted he
  obtain rfl := Option.some.inj (hold'.symm.trans hold)
  refine ⟨h, fun c hc hmarker => Layout.head?_formatted hformatted hc ?_⟩
  simp only [Markdown.isMarker, Bool.or_eq_true, decide_eq_true_eq] at hmarker
  rcases hmarker with
    ((((((((rfl | rfl) | rfl) | rfl) | rfl) | rfl) | rfl) | rfl) | rfl) | rfl <;> rfl

/-- **Laid out paragraphs stay paragraphs**, and no other block changes its kind, when every edit
reads as a paragraph. -/
theorem blockNames_render (hdefs : (ofMarkdown source).DefinitionsApart options)
    (hrules : Markdown.RulesApart source.toList)
    (hedits : ∀ e ∈ (ofMarkdown source).edits options,
      ∃ old ∈ Text.slice source.toList e.span, StaysText old e.content) :
    (ofMarkdown ((ofMarkdown source).render options)).blockNames =
    (ofMarkdown source).blockNames := by
  have hf := edits_blockEdit? options source
  have hapart := editsApart_blocks hdefs
  have hrelaid : ∀ b ∈ blocks source, ∀ e, blockEdit? options source b = some e →
      ∃ old ∈ Text.slice source.toList e.span, Relaid old e.content :=
    fun b hb e he => by
      have hmem : e ∈ (ofMarkdown source).edits options := by
        rw [edits_ofMarkdown]
        exact List.mem_filterMap.mpr ⟨b, hb, he⟩
      obtain ⟨old, hold, hstays⟩ := hedits e hmem
      exact ⟨old, hold, relaid_of_staysText hmem hold hstays⟩
  have hmark := startMark_cases source.toList
  have htext :
      startMark source.toList ++ flat (rawLines (dropMark source.toList)) = source.toList := by
    rw [Markdown.flat_rawLines, startMark_append_dropMark]
  have hin : Input (blockEdit? options source) source.toList (startMark source.toList)
      (rawLines (dropMark source.toList)) (Line.ofText source.toList) := by
    refine ⟨shows_ofText _, Markdown.wellFormed_rawLines _, ?_, ?_,
      Layout.editsApart_of_finish hapart, hrules, fun b hb => hrelaid b (Layout.mem_finish hb)⟩
    · intro hmark hhead
      rw [Markdown.flat_rawLines] at hhead
      exact head?_dropMark hmark hhead
    · exact ⟨[], by rw [List.append_nil, htext]⟩
  obtain ⟨N, hN, hkinds, hedited⟩ := hin.finish hf hapart hrelaid
  rw [htext] at hkinds hedited
  -- the text that was written, and its lines
  have htarget :
      ((ofMarkdown source).render options).toList = startMark source.toList ++ flat N := by
    have happly := hedited.applyEdits_append []
    rw [List.append_nil, List.append_nil] at happly
    rw [render, edits_ofMarkdown, String.toList_ofList]
    exact happly
  obtain ⟨hstart, hdrop⟩ := startMark_append hmark hN.start
  have hshows := shows_ofText (startMark source.toList ++ flat N)
  rw [hstart, hdrop, Markdown.rawLines_flat hN.wellFormed] at hshows
  refine (blockNames_eq ?_).symm
  rw [htarget]
  refine hkinds.trans ?_
  rw [marks_finish (Markdown.Shows.linesAt _ N) hshows]
  rfl

/-! ### Normalized paragraphs -/

/-- **Normalization keeps the kinds of blocks** when every line that it writes is text: the first
line of a paragraph in every place, and the others behind a line of text. -/
theorem blockNames_normalize (hdefs : (ofMarkdown source).DefinitionsApart ⟨none, true⟩)
    (hrules : Markdown.RulesApart source.toList)
    (hedits : ∀ e ∈ (ofMarkdown source).edits ⟨none, true⟩,
      ∃ old ∈ Text.slice source.toList e.span, StaysText old e.content) :
    (ofMarkdown ((ofMarkdown source).render ⟨none, true⟩)).blockNames =
      (ofMarkdown source).blockNames :=
  blockNames_render hdefs hrules hedits

/-- Two paragraphs with an item between them, and a table below the second one. -/
def spaced : String := "a  b\n   c\n- d  e\n\nf   `g  h`\n    (i)\n|j|\n|-|\n"

theorem blockNames_normalize_spaced :
    (ofMarkdown ((ofMarkdown spaced).render ⟨none, true⟩)).blockNames =
      (ofMarkdown spaced).blockNames :=
  blockNames_normalize (by decide +kernel) (by decide +kernel) (by decide +kernel)

/-- A heading is taken for text behind four spaces, which are dropped. -/
theorem normalize_makes_heading : ¬ ∀ source : String,
    (ofMarkdown ((ofMarkdown source).render ⟨none, true⟩)).blockNames =
      (ofMarkdown source).blockNames := by
  intro h
  have hnames := h "a\n    # b"
  revert hnames
  decide +kernel

/-! ### Wrapped paragraphs -/

/-- No word of a paragraph goes over the end of a line, as code may do. -/
def WordsOnLines (d : Document) : Prop :=
  ∀ t ∈ d.root.children, t.isNamed "paragraph" = true → ∀ span ∈ t.span,
    ∀ old ∈ Text.slice d.source.toList span,
      ∀ w ∈ Layout.words (Layout.codeSpans span.start t) 0 old,
      ∀ c ∈ w, Text.isUnbroken c

instance (d : Document) : Decidable d.WordsOnLines :=
  inferInstanceAs (Decidable (∀ t ∈ d.root.children, _ → _))

/-- **Wrapping keeps the kinds of blocks** when the first line that it writes of a paragraph is text
in every place, and the others are text that start with an unguarded character. -/
theorem blockNames_wrap {width : Nat}
    (hdefs : (ofMarkdown source).DefinitionsApart ⟨some width, false⟩)
    (hrules : Markdown.RulesApart source.toList) (hwords : (ofMarkdown source).WordsOnLines)
    (hedits : ∀ e ∈ (ofMarkdown source).edits ⟨some width, false⟩,
      ∃ old ∈ Text.slice source.toList e.span,
        StartsParagraph old e.content ∧ Layout.UnguardedIsText e.content) :
    (ofMarkdown ((ofMarkdown source).render ⟨some width, false⟩)).blockNames =
      (ofMarkdown source).blockNames := by
  refine blockNames_render hdefs hrules fun e he => ?_
  obtain ⟨old, hold, hstart, hguard⟩ := hedits e he
  obtain ⟨t, ht, old', hnamed, hspan, hold', hformatted⟩ := exists_formatted he
  obtain rfl := Option.some.inj (hold'.symm.trans hold)
  refine ⟨old', hold, ?_⟩
  have hunbroken := hwords t ht hnamed e.span hspan old' hold
  unfold Layout.formatted? at hformatted
  dsimp only at hformatted
  split at hformatted
  · rw [← Option.some.inj hformatted] at hstart hguard ⊢
    exact Layout.staysText_wrap (Layout.isEnding_lineEnding _ _) hstart hunbroken hguard
  · cases hformatted

/-- A dash that stays on its line, and words that start with a bracket. -/
def dashed : String := "one two - three\nfour [five] 6.\n> six  seven\n"

theorem blockNames_wrap_dashed :
    (ofMarkdown ((ofMarkdown dashed).render ⟨some 8, false⟩)).blockNames =
      (ofMarkdown dashed).blockNames :=
  blockNames_wrap (by decide +kernel) (by decide +kernel) (by decide +kernel) (by decide +kernel)

/-- HTML interrupts a paragraph, but a word that starts it is put on a new line. -/
theorem wrap_makes_html : ¬ ∀ (source : String) (width : Nat),
    (ofMarkdown ((ofMarkdown source).render ⟨some width, false⟩)).blockNames =
      (ofMarkdown source).blockNames := by
  intro h
  have hnames := h "a <div>" 1
  revert hnames
  decide +kernel

end Document

end LiveDoc
