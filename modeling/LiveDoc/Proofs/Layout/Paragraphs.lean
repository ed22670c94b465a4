import LiveDoc.Proofs.Layout.Kinds
import LiveDoc.Proofs.Layout.Splice
import LiveDoc.Proofs.Markdown.CodePlaces
import LiveDoc.Proofs.Markdown.ParagraphOrder

/-!
# The paragraphs of a document

A paragraph outside of all other blocks is a run of glyphs of the source, and its inline code is cut
out of this run (`exists_glyphs`). Paragraphs lie apart, so their edits can be applied in one pass
(`fits_edits`).
-/

namespace LiveDoc

open Text (Span byteLength)
open Markdown (Block CutOut Element Glyph Labels Line Node Stands codePlacesOf runningOf)

namespace Tree

mutual

/-- The inline code of a tree stands where that of the node does. -/
theorem places_ofNode (source : List Char) : ∀ n : Node,
    ((ofNode source n).preorder.filter (·.isNamed "inlineCode")).map span = n.codePlaces
  | .code span language details value => by
    cases hfenced : isFenced source span <;>
      simp [ofNode, hfenced, preorder, preorderList, leaf, isNamed, kind, Node.codePlaces]
  | .inlineCode span value => by
    simp [ofNode, preorder, preorderList, leaf, isNamed, kind, Tree.span, Node.codePlaces]
  | .text span value => by
    simp [ofNode, preorder, preorderList, leaf, isNamed, kind, Node.codePlaces]
  | .element e span children => by
    have hchildren := places_ofNodes source children
    rw [Node.codePlaces, ← hchildren]
    cases e <;> simp [ofNode, preorder, isNamed, kind, Element.name]

theorem places_ofNodes (source : List Char) : ∀ ns : List Node,
    ((preorderList (ofNodes source ns)).filter (·.isNamed "inlineCode")).map span = codePlacesOf ns
  | [] => rfl
  | n :: rest => by
    rw [ofNodes, preorderList, List.filter_append, List.map_append, places_ofNode source n,
      places_ofNodes source rest, codePlacesOf]

end

end Tree

namespace Document

/-- A tree is that of a paragraph that glyphs of a text make, with inline code cut out of them. -/
structure MadeOf (source : List Char) (t : Tree) (gs : List Glyph) : Prop where
  named : t.isNamed "paragraph" = true
  span : t.span = some (Glyph.spanOf gs)
  stands : Stands source 0 (byteLength source) gs
  code : CutOut gs ((t.nodes.filter (·.isNamed "inlineCode")).map Tree.span)
  fenceless : ∀ n ∈ t.preorder, n.fence? = none

variable {source : String} {options : Layout.Options}

theorem isNamed_element {e : Element} (he : e ≠ .paragraph) (span : Option Span) (ns : List Node)
    (source : List Char) :
    (Tree.ofNode source (.element e span ns)).isNamed "paragraph" = false := by
  cases e <;> first | exact absurd rfl he | rfl

/-- Only paragraphs make the trees of paragraphs. -/
theorem isParagraph_of_isNamed {b : Block} {labels : Labels} {source : List Char}
    (h : (Tree.ofNode source (b.node labels false)).isNamed "paragraph" = true) :
    b.isParagraph = true := by
  by_contra hb
  rw [← Bool.not_eq_false] at h
  apply h
  cases b with
  | container c span children => cases c <;> exact isNamed_element (by decide) _ _ _
  | text e span gs =>
    have he : e ≠ .paragraph := by
      rintro rfl
      exact hb rfl
    rw [Block.node, Markdown.textNode]
    split <;> exact isNamed_element he _ _ _
  | bare e span =>
    have he : e ≠ .paragraph := by
      rintro rfl
      exact hb rfl
    exact isNamed_element he _ _ _
  | definition label span => exact isNamed_element (by decide) _ _ _
  | code span language details value =>
    rw [Block.node, Tree.ofNode]
    cases Tree.isFenced source (some span) <;> rfl
  | table span rows => exact isNamed_element (by decide) _ _ _

theorem spans_of_mem_blocks {b : Block} (h : b ∈ blocks source) : b.Spans :=
  Markdown.spans_of_mem_ofLines (shows_ofText source.toList).placed h

/-- The glyphs of the paragraphs are glyphs of the text, in order. -/
theorem stands_blocks (source : String) :
    Stands source.toList 0 (byteLength source.toList) (runningOf (blocks source)) :=
  (Markdown.stands_ofText source.toList).sublist (Markdown.running_ofLines _)

/-- The tree of a paragraph. -/
theorem madeOf_node {gs : List Glyph} (h : .text .paragraph (Glyph.spanOf gs) gs ∈ blocks source) :
    MadeOf source.toList (Tree.ofNode source.toList
      (Block.node (Markdown.labelsOf (blocks source)) false
      (.text .paragraph (Glyph.spanOf gs) gs))) gs := by
  have hnode : Block.node (Markdown.labelsOf (blocks source)) false
      (.text .paragraph (Glyph.spanOf gs) gs) = .element .paragraph (some (Glyph.spanOf gs))
        (Markdown.Inline.nodes (Markdown.labelsOf (blocks source)) gs) := by
    rw [Block.node, Markdown.textNode]
    rfl
  have hcodes : (Node.element .paragraph (some (Glyph.spanOf gs))
      (Markdown.Inline.nodes (Markdown.labelsOf (blocks source)) gs)).codes = [] :=
    Markdown.Inline.codes_nodesAfter _ false none gs
  rw [hnode]
  refine ⟨rfl, rfl, ?_, ?_, ?_⟩
  · exact (stands_blocks source).sublist (Markdown.running_sublist h)
  · rw [Tree.nodes_eq_preorder, Tree.places_ofNode]
    exact Markdown.Inline.cutOut_nodes _ gs
  · intro n hn
    have hfences := Tree.fences_ofNode source.toList (.element .paragraph (some (Glyph.spanOf gs))
      (Markdown.Inline.nodes (Markdown.labelsOf (blocks source)) gs))
    rw [hcodes] at hfences
    simpa using List.filter_eq_nil_iff.mp hfences n hn

/-- **A paragraph outside of all other blocks is made of glyphs of the text.** -/
theorem exists_glyphs {t : Tree} (ht : t ∈ (ofMarkdown source).root.children)
    (hnamed : t.isNamed "paragraph" = true) : ∃ gs, MadeOf source.toList t gs := by
  rw [children_ofMarkdown] at ht
  obtain ⟨n, hn, rfl⟩ := List.mem_map.mp ht
  -- only nodes that are no list and no item can be paragraphs, and these are the nodes of blocks
  have hfound :
    n ∈ ((Markdown.groupsOf (Markdown.labelsOf (blocks source)) false (blocks source)).flatMap
      Markdown.groupNodes).filterMap fun n =>
        if (Tree.ofNode source.toList n).isNamed "paragraph" then some n else none :=
    List.mem_filterMap.mpr ⟨n, hn, by rw [if_pos hnamed]⟩
  rw [Markdown.filterMap_groupNodes (fun _ _ => rfl) (fun _ _ => rfl)] at hfound
  obtain ⟨b, hb, hnode⟩ := List.mem_filterMap.mp hfound
  split at hnode
  · next hparagraph =>
    obtain rfl := Option.some.inj hnode
    obtain ⟨gs, rfl⟩ := spans_of_mem_blocks hb (isParagraph_of_isNamed hparagraph)
    exact ⟨gs, madeOf_node hb⟩
  · cases hnode

/-! ## Edits of paragraphs -/

/-- Nothing is laid out as nothing. -/
theorem formatted?_nil {ending content : List Char} {start : Nat} {t : Tree}
    (h : Layout.formatted? options ending [] start t = some content) : content = [] := by
  unfold Layout.formatted? at h
  dsimp only at h
  split at h
  · split at h
    · exact (Option.some.inj h).symm
    · split at h
      · exact (Option.some.inj h).symm
      · cases h
  · split at h
    · exact (Option.some.inj h).symm
    · cases h

/-- What is edited is not empty. -/
theorem nonempty_of_paragraphEdit? {text ending : List Char} {t : Tree} {e : Layout.Edit}
    (h : Layout.paragraphEdit? options text ending t = some e) : e.span.start < e.span.stop := by
  obtain ⟨-, old, hlaid, hne⟩ := Layout.paragraphEdit?_eq_some_iff.mp h
  obtain ⟨before, after, hparts⟩ := Text.slice_eq_some_iff.mp hlaid.cut
  have hlength : byteLength old ≠ 0 := by
    intro hzero
    obtain rfl := Text.byteLength_eq_zero_iff.mp hzero
    exact hne (formatted?_nil hlaid.formatted)
  rw [hparts.start, hparts.stop]
  omega

/-- An edit is over the glyphs of a paragraph. -/
theorem spanOf_of_blockEdit? {b : Block} (hb : b ∈ blocks source) {e : Layout.Edit}
    (h : blockEdit? options source b = some e) :
    b.running ≠ [] ∧ e.span = Glyph.spanOf b.running := by
  have hparagraph : b.isParagraph = true := by
    cases hother : b.isParagraph with
    | true => rfl
    | false =>
      rw [(edits_blockEdit? options source).other b hother] at h
      cases h
  obtain ⟨gs, rfl⟩ := spans_of_mem_blocks hb hparagraph
  have hspan := (edits_blockEdit? options source).span _ _ e h
  refine ⟨?_, hspan⟩
  rintro (rfl : gs = [])
  have hne := nonempty_of_paragraphEdit? h
  rw [hspan] at hne
  exact absurd hne (Nat.lt_irrefl 0)

/-- **The edits of a document that was read fit**: they can be cut out of the source, are not empty,
and lie apart. -/
theorem fits_edits (options : Layout.Options) (source : String) :
    Layout.Fits source.toList ((ofMarkdown source).edits options) := by
  have hstands := stands_blocks source
  have hruns : ∀ b ∈ blocks source, ∀ e, blockEdit? options source b = some e →
      b.running ≠ [] ∧ e.span = Glyph.spanOf b.running :=
        fun b hb e he => spanOf_of_blockEdit? hb he
  rw [edits_ofMarkdown]
  refine ⟨fun e he => ?_, fun e he => ?_, ?_⟩
  · obtain ⟨b, hb, he⟩ := List.mem_filterMap.mp he
    obtain ⟨hne, hspan⟩ := hruns b hb e he
    rw [hspan]
    exact ((hstands.sublist (Markdown.running_sublist hb)).spanOf hne).2.2
  · obtain ⟨b, -, he⟩ := List.mem_filterMap.mp he
    exact nonempty_of_paragraphEdit? he
  · rw [List.pairwise_filterMap]
    generalize blocks source = bs at hstands hruns
    induction bs with
    | nil => exact .nil
    | cons b rest ih =>
      obtain ⟨hb, hrest⟩ := List.forall_mem_cons.mp hruns
      refine List.pairwise_cons.mpr ⟨?_, ih (hstands.sublist (List.sublist_append_right _ _)) hrest⟩
      intro b' hb' e he e' he'
      obtain ⟨hne, hspan⟩ := hb e he
      obtain ⟨hne', hspan'⟩ := hrest b' hb' e' he'
      refine Or.inl ?_
      rw [hspan, hspan']
      have hboth := (List.Sublist.refl b.running).append (Markdown.running_sublist hb')
      exact (hstands.sublist hboth).stop_le_start hne hne'

end Document

end LiveDoc
