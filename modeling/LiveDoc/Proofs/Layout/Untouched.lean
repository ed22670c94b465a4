import LiveDoc.Layout.Document
import LiveDoc.Proofs.Template.FenceByFence

/-!
# Documents that stay as they are

A document without templates comes out byte for byte as it went in. What a fence remembers when it
is read is what is later compared with it, so a tree that was read has no edits (`edits_of_asRead`);
and without templates the walk gives back the tree that was read (`fill_of_templateless`).
-/

namespace LiveDoc

namespace Document

/-- No fence of a document is a template: it is not taken for one, or its body is blank. -/
def Templateless (options : Template.Options) (d : Document) : Prop :=
  ∀ t ∈ d.root.fences, ∀ f ∈ t.fence?,
    options.accepts f = false ∨ Text.isBlankText (t.body?.getD "").toList = true

instance (options : Template.Options) (d : Document) : Decidable (d.Templateless options) :=
  inferInstanceAs (Decidable (∀ t ∈ d.root.fences, ∀ f ∈ t.fence?, _ ∨ _))

variable {d : Document} {options : Template.Options}

/-! ## Writing what was read -/

/-- A fence that is as it was read is not written anew. -/
theorem fenceEdit?_of_isAsRead {t : Tree} (h : t.IsAsRead) (source ending : List Char) :
    Layout.fenceEdit? source ending t = none := by
  unfold Layout.fenceEdit?
  split
  · next fence span hfence hspan =>
    obtain ⟨hinfo, hchildren⟩ := h fence hfence
    have hbody : t.body?.getD "" = fence.parsedBody := by
      rw [Tree.body?, hfence, hchildren]
      rfl
    have hsame : fence.isModified (t.body?.getD "") = false := by
      simp [Fence.isModified, hinfo, hbody]
    dsimp only
    rw [hsame]
    rfl
  · rfl

/-- Paragraphs that are not to be laid out are not written anew. -/
theorem paragraphEdit?_standard (source ending : List Char) (t : Tree) :
    Layout.paragraphEdit? .standard source ending t = none := by
  unfold Layout.paragraphEdit?
  split
  · simp [Layout.formatted?, Layout.Options.standard]
  · rfl

/-- A tree that was read has no edits. -/
theorem edits_of_asRead (h : d.root.AsRead) : d.edits .standard = [] := by
  unfold edits
  dsimp only
  rw [Tree.nodes_eq_preorder, List.append_eq_nil_iff, List.filterMap_eq_nil_iff,
    List.filterMap_eq_nil_iff]
  exact ⟨fun t ht => fenceEdit?_of_isAsRead (h t ht) _ _, fun t _ => paragraphEdit?_standard _ _ t⟩

/-- A tree that was read is written as its source. -/
theorem render_of_asRead (h : d.root.AsRead) : d.render .standard = d.source := by
  rw [render, edits_of_asRead h]
  exact String.ofList_toList

/-! ## Nothing to evaluate -/

theorem expression?_of_templateless (h : d.Templateless options) :
    ∀ t ∈ d.root.preorder, Template.expression? options t = none := by
  intro t ht
  unfold Template.expression?
  cases hf : t.fence? with
  | none => rfl
  | some f =>
    have hmem : t ∈ d.root.fences := by
      rw [Tree.fences, Tree.nodes_eq_preorder, List.mem_filter, hf]
      exact ⟨ht, rfl⟩
    rcases h t hmem f hf with hrejected | hblank
    · simp [hrejected]
    · simp [hblank]

/-- Without templates the walk gives back the tree that was read. -/
theorem fill_of_templateless (ns : Namespace) (hread : d.root.AsRead)
    (h : d.Templateless options) : d.fill ns options = .ok d := by
  have hnone := expression?_of_templateless h
  have hempty : Template.expressions options d.root = [] := by
    rw [Template.expressions_eq, List.filterMap_eq_nil_iff]
    exact hnone
  obtain ⟨calls, -, hends⟩ := Template.fill_inOrder ns options hread
  rw [hempty] at hends
  unfold fill
  generalize Template.fill ns options d.root = out at hends ⊢
  obtain ⟨final, _ | e⟩ := out
  · obtain ⟨-, -, rfl⟩ := hends
    rw [Tree.mapFences_eq_self]
    intro n hn _
    rw [Template.filledFence, hnone n hn]
  · obtain ⟨done, x, rest, hsplit, -⟩ := hends
    simp at hsplit

/-- **Documents without templates are returned as they are**: when every fence of a text is not
taken for a template or has a blank body, the text is written as it was read. -/
theorem renderMarkdown_of_templateless (ns : Namespace) (options : Template.Options)
    (source : String) (h : (ofMarkdown source).Templateless options) :
    renderMarkdown ns options .standard source = .ok source := by
  have hread : (ofMarkdown source).root.AsRead := Tree.asRead_ofNode _ _
  rw [renderMarkdown, fill_of_templateless ns hread h]
  exact congrArg Except.ok (render_of_asRead hread)

/-- Indented code, a quoted fence with an escape and more words behind its language, a blank
template in a list, and a fence that is never closed. -/
def untagged : String :=
  "    run\r\n> ~~~ ru\\*st a=1\r\n> é\r\n> ~~~\r\n1. ```run\r\n   \t\r\n   ```\r\n\r\n~~~~md\r\nopen"

theorem renderMarkdown_untagged :
    (ofMarkdown untagged).Templateless ⟨some "run", true⟩ ∧
      renderMarkdown .empty ⟨some "run", true⟩ .standard untagged = .ok untagged := by
  have htemplateless : (ofMarkdown untagged).Templateless ⟨some "run", true⟩ := by
    decide +kernel
  exact ⟨htemplateless,
    renderMarkdown_of_templateless .empty ⟨some "run", true⟩ untagged htemplateless⟩

end Document

end LiveDoc
