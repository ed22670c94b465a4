import LiveDoc.Proofs.Layout.Kinds
import LiveDoc.Proofs.Layout.Reparse
import LiveDoc.Proofs.Layout.Rewritten
import LiveDoc.Proofs.Template.FenceByFence

/-!
# The fences of a document that was filled

The edits of a document that was filled are those of its code, one by one
(`Document.edits_of_fill`). So the fences of the written document are those of the source, as a
sound revision changes them (`Document.forall₂_fenced`).
-/

namespace LiveDoc

open Layout (Edit Edited)
open Markdown
  (Code FenceOpening Line Outline RawLine Reader Revision codesOf dropMark fenced flat linesAt
  rawLines)
open Text (Span byteLength)

/-! ## Trees whose fences were changed -/

namespace Tree

open LiveDoc.Tree (preorderList mapFencesList)

mutual

/-- What is found in the fences of a tree that were changed one by one. -/
theorem filterMap_mapFences {α : Type} {F : Tree → Option α} {g : Tree → Tree}
    (hF : ∀ t : Tree, t.fence? = none → F t = none)
    (hg : ∀ t : Tree, t.fence?.isSome = true → t.IsAsRead →
      (g t).preorder.filterMap F = (F (g t)).toList) : ∀ t : Tree, t.AsRead →
    (t.mapFences g).preorder.filterMap F =
      t.preorder.filterMap fun n => if n.fence?.isSome then F (g n) else none
  | .mk k s cs, hread => by
    rw [preorder, List.filterMap_cons]
    by_cases hk : ∃ f, k = .fence f
    · obtain ⟨f, rfl⟩ := hk
      obtain rfl := hread.children
      rw [mapFences, hg _ rfl (hread _ (by rw [preorder]; exact List.mem_cons_self))]
      have hbelow : (preorderList [leaf f.parsedBody none]).filterMap
          (fun n => if n.fence?.isSome then F (g n) else none) = [] := rfl
      rw [hbelow]
      cases F (g (.mk (.fence f) s [leaf f.parsedBody none])) <;> rfl
    · have hk' := not_exists.mp hk
      have hnone : (mk k s cs).fence? = none := by
        cases k with
        | fence f => exact absurd rfl (hk' f)
        | _ => rfl
      have hnone' : (mk k s (mapFencesList g cs)).fence? = none := hnone
      rw [mapFences_of_ne hk', preorder, List.filterMap_cons, hF _ hnone', hnone]
      exact filterMap_mapFencesList hF hg cs hread.below

theorem filterMap_mapFencesList {α : Type} {F : Tree → Option α} {g : Tree → Tree}
    (hF : ∀ t : Tree, t.fence? = none → F t = none)
    (hg : ∀ t : Tree, t.fence?.isSome = true → t.IsAsRead →
      (g t).preorder.filterMap F = (F (g t)).toList) :
      ∀ ts : List Tree, (∀ n ∈ preorderList ts, n.IsAsRead) →
    (preorderList (mapFencesList g ts)).filterMap F =
      (preorderList ts).filterMap fun n => if n.fence?.isSome then F (g n) else none
  | [], _ => rfl
  | t :: ts, hread => by
    rw [preorderList] at hread
    obtain ⟨hfirst, hothers⟩ := List.forall_mem_append.mp hread
    rw [mapFencesList, preorderList, preorderList, List.filterMap_append, List.filterMap_append,
      filterMap_mapFences hF hg t hfirst, filterMap_mapFencesList hF hg ts hothers]

end

end Tree

namespace Markdown

/-- What was read when the lines of a text were read that start in front of a place. -/
def Reader.upTo (source : List Char) (place : Nat) : Reader :=
  ((Line.ofText source).takeWhile (·.start < place)).foldl Reader.step .empty

theorem readTo_empty (source : List Char) (place : Nat) :
    Outline.empty.readTo place (Line.ofText source) = (Reader.upTo source place).outline := by
  have hall : ∀ (ls : List Line) (r : Reader), r.outline.readTo place ls =
      ((ls.takeWhile (·.start < place)).foldl Reader.step r).outline := by
    intro ls
    induction ls with
    | nil => exact fun r => rfl
    | cons l rest ih =>
      intro r
      rw [Outline.readTo]
      split
      · next hlt =>
        rw [List.takeWhile_cons_of_pos (by simpa using hlt), List.foldl_cons, ← ih,
          (Reader.outline_step r l).1]
      · next hlt =>
        rw [List.takeWhile_cons_of_neg (by simpa using hlt)]
        rfl
  exact hall _ .empty

end Markdown

namespace Document

variable {source : String}

/-- The code of a text. -/
def codes (source : String) : List Code :=
    codesOf (Markdown.Block.ofLines (Line.ofText source.toList))

/-- The tree of fenced code. -/
theorem ofNode_of_isFenced {source : List Char} {c : Code}
    (h : Tree.isFenced source (some c.span) = true) :
    Tree.ofNode source c.node = .mk (.fence (.ofParsed c.tells.1 c.tells.2 (String.ofList c.value)))
      (some c.span) [.leaf (String.ofList c.value) none] := by
  rw [Markdown.Code.node, Tree.ofNode, h]
  rfl

/-- The edit of code that is filled, if it is a fence of the text and that changes it. -/
def filledEdit? (ns : Namespace) (source : String) (c : Code) : Option Edit :=
  let root := (ofMarkdown source).root
  let t := Tree.ofNode source.toList c.node
  if t ∈ root.fences then
    Layout.fenceEdit? source.toList (Layout.lineEnding none source.toList)
      (Template.filledFence .standard (Template.environment ns .standard root) t)
  else none

variable {ns : Namespace} {d : Document}

theorem isFenced_of_mem_fences {c : Code}
    (h : Tree.ofNode source.toList c.node ∈ (ofMarkdown source).root.fences) :
    Tree.isFenced source.toList (some c.span) = true := by
  rw [Tree.fences, List.mem_filter] at h
  by_contra hfenced
  have hfence := h.2
  rw [Markdown.Code.node, Tree.ofNode, if_neg hfenced] at hfence
  cases hfence

theorem mem_fences_iff {c : Code} (hc : c ∈ codes source) :
    Tree.ofNode source.toList c.node ∈ (ofMarkdown source).root.fences ↔
      Tree.isFenced source.toList (some c.span) = true := by
  refine ⟨isFenced_of_mem_fences, fun hfenced => ?_⟩
  rw [ofMarkdown, Tree.fences_ofMarkdown]
  exact List.mem_map_of_mem (List.mem_filter.mpr ⟨hc, hfenced⟩)

/-- A fence that was filled holds a body and nothing else. -/
theorem exists_filledFence (options : Template.Options) (env : Environment) (f : Fence)
    (s : Option Span) (body : String) :
    ∃ f' content, Template.filledFence options env (.mk (.fence f) s [.leaf body none]) =
      .mk (.fence f') s [.leaf content none] := by
  unfold Template.filledFence
  split
  · exact ⟨f, body, rfl⟩
  · split
    · exact ⟨f, body, rfl⟩
    · next r _ => exact ⟨_, r.content, rfl⟩

/-- A document that was filled is the one that was read with each fence filled. -/
theorem root_of_fill (h : (ofMarkdown source).fill ns .standard = .ok d) :
    d.source = source ∧ d.root = (ofMarkdown source).root.mapFences
      (Template.filledFence .standard
      (Template.environment ns .standard (ofMarkdown source).root)) := by
  have hread : (ofMarkdown source).root.AsRead := Tree.asRead_ofNode _ _
  obtain ⟨calls, -, hends⟩ := Template.fill_inOrder ns .standard hread
  unfold fill at h
  generalize Template.fill ns .standard (ofMarkdown source).root = out at hends h
  obtain ⟨final, _ | e⟩ := out
  · obtain ⟨-, -, rfl⟩ := hends
    cases h
    exact ⟨rfl, rfl⟩
  · cases h

/-- What is found in the fences of a document that was filled. -/
theorem filterMap_of_fill {α : Type} {F : Tree → Option α}
    (h : (ofMarkdown source).fill ns .standard = .ok d)
    (hF : ∀ t : Tree, t.fence? = none → F t = none) :
    d.root.nodes.filterMap F = (fenced source.toList (codes source)).filterMap fun c =>
      F (Template.filledFence .standard (Template.environment ns .standard (ofMarkdown source).root)
        (Tree.ofNode source.toList c.node)) := by
  have hread : (ofMarkdown source).root.AsRead := Tree.asRead_ofNode _ _
  have hfences : (ofMarkdown source).root.fences = _ := Tree.fences_ofMarkdown source.toList
  rw [(root_of_fill h).2, Tree.nodes_eq_preorder, Tree.filterMap_mapFences hF ?_ _ hread,
    ← List.filterMap_filter, ← Tree.nodes_eq_preorder, ← Tree.fences, hfences, List.filterMap_map]
  · rfl
  · rintro ⟨k, s, cs⟩ ht hasRead
    obtain ⟨f, hf⟩ := Option.isSome_iff_exists.mp ht
    obtain ⟨-, rfl⟩ := hasRead f hf
    obtain rfl : k = .fence f := by
      cases k <;> cases hf
      rfl
    obtain ⟨f', content, hfilled⟩ := exists_filledFence .standard
      (Template.environment ns .standard (ofMarkdown source).root) f s f.parsedBody
    have hleaf : (Tree.preorderList [.leaf content none]).filterMap F = [] := by
      rw [List.filterMap_eq_nil_iff]
      intro t ht
      obtain rfl := List.mem_singleton.mp ht
      exact hF _ rfl
    rw [hfilled, Tree.preorder, List.filterMap_cons, hleaf]
    cases F (.mk (.fence f') s [.leaf content none]) <;> rfl

/-- A document that was filled has the edits of its code. -/
theorem edits_of_fill (h : (ofMarkdown source).fill ns .standard = .ok d) :
    d.edits .standard = (codes source).filterMap (filledEdit? ns source) := by
  have hparagraphs : ∀ ts : List Tree, ts.filterMap (Layout.paragraphEdit? .standard source.toList
      (Layout.lineEnding none source.toList)) = [] :=
    fun ts => List.filterMap_eq_nil_iff.mpr fun t _ => paragraphEdit?_standard _ _ t
  unfold edits
  dsimp only
  rw [(root_of_fill h).1, hparagraphs, List.append_nil, filterMap_of_fill h, fenced,
    List.filterMap_filter]
  · refine List.filterMap_congr fun c hc => ?_
    rw [filledEdit?]
    simp only [mem_fences_iff hc]
  · intro t ht
    rw [Layout.fenceEdit?, ht]

/-! ## What the fences of a filled document hold -/

/-- Every template of a document gives text of a kind for the body of its fence. -/
def FillsInline (kind : List Char → Prop) (ns : Namespace) (d : Document) : Prop :=
  ∀ body ∈ d.root.bodies, Text.isBlankText body.toList = false →
    ∃ content, Template.evaluate body (Template.environment ns .standard d.root) =
      .ok (.inline content) ∧
      kind content.toList

/-- What the fence of code holds when it is filled. -/
def filledBody (ns : Namespace) (source : String) (c : Code) : String :=
  (Template.filledFence .standard (Template.environment ns .standard (ofMarkdown source).root)
    (Tree.ofNode source.toList c.node)).body?.getD ""

theorem fenceEdit?_ofParsed (source ending : List Char) (language : Option String)
    (info body content : String) (span : Span) : Layout.fenceEdit? source ending
      (.mk (.fence (.ofParsed language info body)) (some span) [.leaf content none]) =
        if content = body then none else (Text.slice source span).map fun old =>
          ⟨span, Layout.renderFence old (.ofParsed language info body) content.toList ending⟩ := by
  have hbody : (Tree.mk (.fence (.ofParsed language info body)) (some span)
      [.leaf content none]).body?.getD "" = content := rfl
  have hmodified :
      (Fence.ofParsed language info body).isModified content = decide (content ≠ body) := by
    by_cases hsame : content = body <;> simp [Fence.isModified, Fence.ofParsed, hsame]
  unfold Layout.fenceEdit?
  dsimp only [Tree.fence?, Tree.kind, Tree.span]
  rw [hbody, hmodified]
  by_cases hsame : content = body <;> simp [hsame]

variable {kind : List Char → Prop} {c : Code}

/-- A fence is filled with text of the kind, or is no template and stays as it is. -/
theorem filledEdit?_cases (hfills : FillsInline kind ns (ofMarkdown source))
    (hmem : Tree.ofNode source.toList c.node ∈ (ofMarkdown source).root.fences) :
    (filledBody ns source c = String.ofList c.value ∨
      Text.isBlankText (String.ofList c.value).toList = false ∧
        kind (filledBody ns source c).toList) ∧
    filledEdit? ns source c = if filledBody ns source c = String.ofList c.value then none else
      (Text.slice source.toList c.span).map fun old =>
      ⟨c.span, Layout.writeFence (.ofText old c.value)
        c.tells.2.toList (filledBody ns source c).toList
          (Layout.lineEnding none source.toList)⟩ := by
  have hparsed :
    (Fence.ofParsed c.tells.1 c.tells.2 (String.ofList c.value)).parsedBody.toList = c.value :=
    String.toList_ofList
  have htree := ofNode_of_isFenced (isFenced_of_mem_fences hmem)
  -- whatever stands in the fence, its edit looks like this
  have hedit : ∀ content, Template.filledFence .standard
      (Template.environment ns .standard (ofMarkdown source).root)
        (Tree.ofNode source.toList c.node) =
        .mk (.fence (.ofParsed c.tells.1 c.tells.2 (String.ofList c.value))) (some c.span)
          [.leaf content none] →
      filledBody ns source c = content ∧
        filledEdit? ns source c = if content = String.ofList c.value then none else
          (Text.slice source.toList c.span).map fun old =>
            ⟨c.span, Layout.writeFence (.ofText old c.value)
            c.tells.2.toList content.toList (Layout.lineEnding none source.toList)⟩ := by
    intro content hfilled
    refine ⟨by rw [filledBody, hfilled]; rfl, ?_⟩
    unfold filledEdit?
    dsimp only
    rw [if_pos hmem, hfilled, fenceEdit?_ofParsed]
    unfold Layout.renderFence
    rw [hparsed]
    rfl
  have hexpression : Template.expression? .standard (Tree.ofNode source.toList c.node) =
      if !Text.isBlankText (String.ofList c.value).toList then some (String.ofList c.value)
      else none := by
    rw [htree]
    rfl
  cases hblank : Text.isBlankText (String.ofList c.value).toList with
  | true =>
    obtain ⟨hbody, heq⟩ := hedit (String.ofList c.value) (by
      rw [Template.filledFence, hexpression, hblank]
      exact htree)
    rw [hbody]
    exact ⟨Or.inl rfl, heq⟩
  | false =>
    have hmemBody : String.ofList c.value ∈ (ofMarkdown source).root.bodies := by
      rw [htree] at hmem
      exact List.mem_map.mpr ⟨_, hmem, rfl⟩
    obtain ⟨content, heval, hkind⟩ := hfills _ hmemBody hblank
    obtain ⟨hbody, heq⟩ := hedit content (by
      rw [Template.filledFence, hexpression, hblank]
      simp only [Bool.not_false, if_true, heval]
      rw [htree]
      rfl)
    rw [hbody]
    exact ⟨Or.inr ⟨rfl, hkind⟩, heq⟩

/-- An edit puts text of the kind in the place of a template, and leaves what its fence says. -/
theorem exists_of_filledEdit? (hfills : FillsInline kind ns (ofMarkdown source)) {e : Edit}
    (h : filledEdit? ns source c = some e) :
    Tree.ofNode source.toList c.node ∈ (ofMarkdown source).root.fences ∧
      Text.isBlankText (String.ofList c.value).toList = false ∧
        kind (filledBody ns source c).toList ∧
      ∃ old, Text.slice source.toList c.span = some old ∧
        e = ⟨c.span, Layout.writeFence (.ofText old c.value) c.tells.2.toList
          (filledBody ns source c).toList (Layout.lineEnding none source.toList)⟩ := by
  have hmem : Tree.ofNode source.toList c.node ∈ (ofMarkdown source).root.fences := by
    by_contra hmem
    unfold filledEdit? at h
    dsimp only at h
    rw [if_neg hmem] at h
    cases h
  obtain ⟨hbody, heq⟩ := filledEdit?_cases hfills hmem
  rw [heq] at h
  split at h
  · cases h
  · next hne =>
    obtain ⟨old, hold, rfl⟩ := Option.map_eq_some_iff.mp h
    obtain ⟨hblank, hkind⟩ := hbody.resolve_left hne
    exact ⟨hmem, hblank, hkind, old, hold, rfl⟩

/-- What is said of the fence of every template of a text, of the place where it stands, and of its
text. -/
def EachTemplate (source : String) (holds : Fence → Span → List Char → Prop) : Prop :=
  ∀ t ∈ (ofMarkdown source).root.fences, Text.isBlankText (t.body?.getD "").toList = false →
    ∀ f ∈ t.fence?, ∀ span ∈ t.span, ∀ old ∈ Text.slice source.toList span, holds f span old

instance (source : String) (holds : Fence → Span → List Char → Prop)
    [∀ f span old, Decidable (holds f span old)] : Decidable (EachTemplate source holds) :=
  inferInstanceAs
    (Decidable (∀ t ∈ (ofMarkdown source).root.fences, _ → ∀ f ∈ t.fence?, ∀ span ∈ t.span,
      ∀ old ∈ Text.slice source.toList span, _))

/-- A fence that is edited is one of a template. -/
theorem EachTemplate.exists_of_filledEdit? {holds : Fence → Span → List Char → Prop}
    (h : EachTemplate source holds) (hfills : FillsInline kind ns (ofMarkdown source)) {e : Edit}
    (he : filledEdit? ns source c = some e) : ∃ old, Text.slice source.toList c.span = some old ∧
      e = ⟨c.span, Layout.writeFence (.ofText old c.value) c.tells.2.toList
        (filledBody ns source c).toList
        (Layout.lineEnding none source.toList)⟩ ∧
      kind (filledBody ns source c).toList ∧
      holds (.ofParsed c.tells.1 c.tells.2 (String.ofList c.value)) c.span old := by
  obtain ⟨hmem, hblank, hcontent, old, hold, rfl⟩ := Document.exists_of_filledEdit? hfills he
  rw [ofNode_of_isFenced (isFenced_of_mem_fences hmem)] at hmem
  exact ⟨old, hold, rfl, hcontent, h _ hmem hblank _ rfl c.span rfl old hold⟩

/-- A fence that is not edited holds what it held. -/
theorem filledBody_of_none (hfills : FillsInline kind ns (ofMarkdown source))
    (hmem : Tree.ofNode source.toList c.node ∈ (ofMarkdown source).root.fences)
    (h : filledEdit? ns source c = none) : filledBody ns source c = String.ofList c.value := by
  by_contra hne
  rw [(filledEdit?_cases hfills hmem).2, if_neg hne, Option.map_eq_none_iff] at h
  have hfenced := isFenced_of_mem_fences hmem
  rw [Tree.isFenced, Option.bind_some, h] at hfenced
  cases hfenced

/-- The bodies of a document that was filled. -/
theorem bodies_of_fill (h : (ofMarkdown source).fill ns .standard = .ok d) :
    d.root.bodies = (fenced source.toList (codes source)).map (filledBody ns source) := by
  have hbodies : ∀ t : Tree, t.bodies = t.nodes.filterMap Tree.body? := by
    intro t
    rw [Tree.bodies, Tree.fences, ← List.filterMap_eq_map, List.filterMap_filter]
    refine List.filterMap_congr fun n _ => ?_
    cases hfence : n.fence? <;> simp [Tree.body?, hfence]
  rw [hbodies, filterMap_of_fill h fun t ht => by rw [Tree.body?, ht]; rfl, ← List.filterMap_eq_map]
  refine List.filterMap_congr fun c hc => ?_
  have htree := ofNode_of_isFenced (List.mem_filter.mp hc).2
  obtain ⟨f, content, hfilled⟩ := exists_filledFence .standard
    (Template.environment ns .standard (ofMarkdown source).root)
    (.ofParsed c.tells.1 c.tells.2 (String.ofList c.value)) (some c.span) (String.ofList c.value)
  rw [Function.comp_apply, filledBody, htree, hfilled]
  rfl

/-! ## The written document -/

/-- The raw lines of a text hold its code. -/
theorem codes_rawLines (source : String) :
    Outline.empty.codes
      (linesAt (byteLength (startMark source.toList)) (rawLines (dropMark source.toList))) =
      (codes source).map (Code.shift 0) := by
  have hshows : (Line.ofText source.toList).map (Line.shift 0) = linesAt
    (byteLength (startMark source.toList)) (rawLines (dropMark source.toList)) :=
      shows_ofText source.toList
  rw [← hshows, codes, Markdown.codesOf_ofLines, ← Outline.codes_shift]
  rfl

theorem node_shift_zero (c : Code) : (c.shift 0).node = c.node := by
  have htext : ∀ gs : Option (List Markdown.Glyph),
      (gs.map (Markdown.shifted 0)).map Markdown.decodedText = gs.map Markdown.decodedText := by
    intro gs
    cases gs with
    | none => rfl
    | some gs => simp [Markdown.decodedText]
  simp only [Markdown.Code.node, Code.shift, htext, Nat.add_zero]

theorem fenced_shift_zero (text : List Char) (cs : List Code) :
    fenced text (cs.map (Code.shift 0)) = (fenced text cs).map (Code.shift 0) := by
  rw [fenced, List.filter_map, fenced]
  rfl

theorem filledEdit?_shift_zero (ns : Namespace) (source : String) (c : Code) :
    filledEdit? ns source (c.shift 0) = filledEdit? ns source c := by
  rw [filledEdit?, filledEdit?, node_shift_zero]

/-- An edit stands where the code of its fence does, which is not empty. -/
theorem span_of_filledEdit? {e : Edit} (h : filledEdit? ns source c = some e) :
    e.span = c.span ∧ c.span.start < c.span.stop := by
  unfold filledEdit? at h
  dsimp only at h
  split at h
  · next hmem =>
    have hfenced := isFenced_of_mem_fences hmem
    obtain ⟨f, content, hfilled⟩ := exists_filledFence .standard
      (Template.environment ns .standard (ofMarkdown source).root)
      (.ofParsed c.tells.1 c.tells.2 (String.ofList c.value)) (some c.span) (String.ofList c.value)
    rw [ofNode_of_isFenced hfenced, hfilled] at h
    unfold Layout.fenceEdit? at h
    dsimp only [Tree.fence?, Tree.kind, Tree.span] at h
    split at h
    · obtain ⟨old, hold, rfl⟩ := Option.map_eq_some_iff.mp h
      obtain ⟨before, after, hparts⟩ := Text.slice_eq_some_iff.mp hold
      have hne : old ≠ [] := by
        rintro rfl
        rw [Tree.isFenced, Option.bind_some, hold] at hfenced
        cases hfenced
      have hpos : 0 < byteLength old := Nat.pos_of_ne_zero (mt Text.byteLength_eq_zero_iff.mp hne)
      refine ⟨rfl, ?_⟩
      rw [hparts.start, hparts.stop]
      exact Nat.lt_add_of_pos_right hpos
    · cases h
  · cases h

theorem readTo_rawLines (source : String) (place : Nat) :
    Outline.empty.readTo place (linesAt (byteLength (startMark source.toList))
      (rawLines (dropMark source.toList))) = (Reader.upTo source.toList place).outline.shift 0 := by
  have hshows : (Line.ofText source.toList).map (Line.shift 0) = linesAt
    (byteLength (startMark source.toList)) (rawLines (dropMark source.toList)) :=
      shows_ofText source.toList
  rw [← hshows, ← Markdown.readTo_empty]
  exact Outline.readTo_shift 0 place .empty _

variable {R : Revision}

/-- The code that is edited in a text is fenced by its lines. -/
theorem editsFences (hedit : R.edit? = filledEdit? ns source)
    (hopened : ∀ c, (R.edit? c).isSome = true → ∃ op value ending,
      (Reader.upTo source.toList (c.span.start + 1)).leaf = .fence op value ending ∧
        R.opened c (Reader.upTo source.toList (c.span.start + 1)).outline.containers op.indent)
    (hended : ∀ c, (R.edit? c).isSome = true →
      R.ended c (Reader.upTo source.toList c.span.stop).leaf.isFence) :
    Outline.EditsFences (R.behind []) (byteLength (startMark source.toList)) .empty
      (rawLines (dropMark source.toList)) := by
  refine ⟨⟨Nat.zero_le _, Nat.zero_le _, fun _ _ _ _ hnone => Markdown.Leaf.noConfusion hnone⟩,
    Markdown.wellFormed_rawLines _, fun _ _ hholds => hholds.elim, ?_, ?_, ?_⟩
  · intro c hc
    have hsome : (R.edit? (c.shift 0)).isSome = true := hc
    obtain ⟨e, he⟩ := Option.isSome_iff_exists.mp hsome
    rw [hedit, filledEdit?_shift_zero] at he
    exact (span_of_filledEdit? he).2
  · intro c _ _ hc
    obtain ⟨op, value, ending, hleaf, hopens⟩ := hopened (c.shift 0) hc
    have hstart : (c.shift 0).span.start = c.span.start := rfl
    rw [hstart] at hleaf hopens
    rw [readTo_rawLines]
    generalize Reader.upTo source.toList (c.span.start + 1) = reader at hleaf hopens
    refine ⟨op.shift 0, value, ending, ?_, hopens⟩
    have hshift : (reader.outline.shift 0).leaf = reader.leaf.shift 0 := rfl
    rw [hshift, hleaf]
    rfl
  · intro c _ _ hc
    have hends := hended (c.shift 0) hc
    have hstop : (c.shift 0).span.stop = c.span.stop := rfl
    rw [hstop] at hends
    rw [readTo_rawLines]
    generalize Reader.upTo source.toList c.span.stop = reader at hends
    have hfence : (reader.outline.shift 0).leaf.isFence = reader.leaf.isFence :=
      Markdown.Leaf.isFence_shift 0 reader.leaf
    rw [hfence]
    exact hends

/-- **The fences of a written document** are those of the source, as a sound revision changes them
whose edits are those of the filled fences. -/
theorem forall₂_fenced (hR : R.Sound source.toList) (hedit : R.edit? = filledEdit? ns source)
    (hopened : ∀ c, (R.edit? c).isSome = true → ∃ op value ending,
      (Reader.upTo source.toList (c.span.start + 1)).leaf = .fence op value ending ∧
        R.opened c (Reader.upTo source.toList (c.span.start + 1)).outline.containers op.indent)
    (hended : ∀ c, (R.edit? c).isSome = true →
      R.ended c (Reader.upTo source.toList c.span.stop).leaf.isFence)
    (hfill : (ofMarkdown source).fill ns .standard = .ok d) :
    List.Forall₂ (fun c c' => R.same (c.shift 0) (c'.shift 0)) (fenced source.toList (codes source))
      (fenced (d.render .standard).toList (codes (d.render .standard))) := by
  have hzero : byteLength [] = 0 := rfl
  have hfences := editsFences hedit hopened hended
  have hsource :
      source.toList = [] ++ startMark source.toList ++
      flat (rawLines (dropMark source.toList)) := by
    rw [Markdown.flat_rawLines, List.nil_append, startMark_append_dropMark]
  obtain ⟨ys, hys⟩ :=
    Markdown.exists_rewritten hR (rawLines (dropMark source.toList)) hsource hfences .nil
  have hedited := hys.edited
  have hsame := hys.same
  have hshift :
      ∀ cs : List Code, (cs.map (Code.shift 0)).filterMap R.edit? = cs.filterMap R.edit? := by
    intro cs
    rw [List.filterMap_map, hedit]
    refine List.filterMap_congr fun c _ => ?_
    rw [Function.comp_apply, filledEdit?_shift_zero]
  rw [codes_rawLines, hzero, hshift, hshift, hedit, ← edits_of_fill hfill, List.nil_append,
    List.nil_append] at hedited
  -- the text that is written
  have happly := hedited.applyEdits_append []
  rw [List.append_nil, List.append_nil] at happly
  have hrender : (d.render .standard).toList = startMark source.toList ++ flat ys := by
    rw [render, String.toList_ofList, (root_of_fill hfill).1, happly]
  have hstart : startMark source.toList = [] → (flat ys).head? ≠ some Markdown.byteOrderMark := by
    intro hnil hhead
    rw [hys.head, Markdown.flat_rawLines] at hhead
    exact head?_dropMark hnil hhead
  obtain ⟨hmark', hdrop'⟩ := startMark_append (startMark_cases source.toList) hstart
  have hcodes := codes_rawLines (d.render .standard)
  rw [hrender, hmark', hdrop', Markdown.rawLines_flat hys.wellFormed] at hcodes
  have htwice :
      ∀ cs : List Code, (cs.map (Code.shift 0)).map (Code.shift 0) = cs.map (Code.shift 0) := by
    intro cs
    rw [List.map_map]
    exact List.map_congr_left fun c _ => c.shift_shift 0 0
  rw [codes_rawLines, hcodes, hzero, htwice, htwice, List.nil_append, ← hrender, fenced_shift_zero,
    fenced_shift_zero, List.forall₂_map_left_iff, List.forall₂_map_right_iff] at hsame
  exact hsame

end Document

end LiveDoc
