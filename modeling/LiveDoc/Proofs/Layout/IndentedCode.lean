import Mathlib.Data.List.TakeDrop
import Mathlib.Data.List.TakeWhile
import LiveDoc.Proofs.Layout.Untouched
import LiveDoc.Proofs.Markdown.IndentedCode
import LiveDoc.Proofs.Text.Slice

/-!
# When indented code is a template

A block of code is a fence when its source shows the marker of one behind spaces. The source of
indented code starts with the spaces of its first line, so the first line alone decides.

* `isFenced_indentedCode` — the block is taken for a fence exactly when its first line shows one;
* `renderMarkdown_indentedCode` — else nothing is evaluated and the text stays as it is, and if so,
  the lines are evaluated and no rendering succeeds.
-/

namespace LiveDoc

open Markdown (indentedCode indentedCode_cons IsCodeLine Node)

/-- Whether a line shows, behind spaces, the marker of a fence. -/
def showsFence (line : List Char) : Bool :=
  let text := line.dropWhile (· = ' ')
  ['`', '`', '`'].isPrefixOf text || ['~', '~', '~'].isPrefixOf text

/-! ## The first line decides -/

/-- What starts with a line end cannot complete a marker. -/
theorem isPrefixOf_append {marker text more : List Char} (hmarker : '\n' ∉ marker)
    (hmore : more.head? = none ∨ more.head? = some '\n') :
    marker.isPrefixOf (text ++ more) = marker.isPrefixOf text := by
  induction marker generalizing text with
  | nil => rfl
  | cons c marker ih =>
    cases text with
    | nil =>
      cases more with
      | nil => rfl
      | cons d more =>
        obtain rfl : d = '\n' := by simpa using hmore
        have hne : c ≠ '\n' := fun heq => hmarker (heq ▸ List.mem_cons_self)
        simp [List.isPrefixOf, hne]
    | cons d text =>
      have hrest : marker.isPrefixOf (text ++ more) = marker.isPrefixOf text :=
        ih fun hmem => hmarker (List.mem_cons_of_mem c hmem)
      rw [List.cons_append, List.isPrefixOf, List.isPrefixOf, hrest]

theorem indentedCode_append (lines more : List (List Char)) :
    indentedCode (lines ++ more) = indentedCode lines ++ indentedCode more :=
  List.flatMap_append

/-- Without its last line end, indented code is its first line and, if there are more, a line end
and what comes behind it. -/
theorem indentedCode_eq_append (first : List Char) (rest : List (List Char)) :
    ∃ tail, indentedCode (first :: rest) =
        ' ' :: ' ' :: ' ' :: ' ' :: (first ++ tail) ++ ['\n'] ∧
      (tail.head? = none ∨ tail.head? = some '\n') := by
  rw [indentedCode_cons]
  rcases List.eq_nil_or_concat rest with rfl | ⟨lines, last, rfl⟩
  · exact ⟨[], by simp [indentedCode], Or.inl rfl⟩
  · refine ⟨'\n' :: (indentedCode lines ++ ' ' :: ' ' :: ' ' :: ' ' :: last), ?_, Or.inr rfl⟩
    rw [List.concat_eq_append, indentedCode_append, indentedCode_cons]
    simp [indentedCode]

variable {first : List Char} {rest : List (List Char)}

/-- Indented code is taken for a fence exactly when its first line shows one. -/
theorem isFenced_indentedCode (h : ∀ line ∈ first :: rest, IsCodeLine line) :
    Tree.isFenced (indentedCode (first :: rest))
        (some ⟨0, Text.byteLength (indentedCode (first :: rest)) - 1⟩) = showsFence first := by
  obtain ⟨tail, hsource, htail⟩ := indentedCode_eq_append first rest
  have hslice : Text.slice (indentedCode (first :: rest))
      ⟨0, Text.byteLength (indentedCode (first :: rest)) - 1⟩ =
        some (' ' :: ' ' :: ' ' :: ' ' :: (first ++ tail)) := by
    refine Text.slice_eq_some_iff.mpr ⟨[], ['\n'], hsource, rfl, ?_⟩
    have hend : Text.byteLength ['\n'] = 1 := rfl
    rw [hsource, Text.byteLength_append, hend]
    simp [Text.byteLength]
  -- the first line is not blank, so the spaces end in it
  have hspaces : (' ' :: ' ' :: ' ' :: ' ' :: (first ++ tail)).dropWhile (· = ' ') =
      first.dropWhile (· = ' ') ++ tail := by
    obtain ⟨-, c, hc, hspace, -⟩ := h first List.mem_cons_self
    have hne : first.dropWhile (· = ' ') ≠ [] := by
      intro hnil
      rw [List.dropWhile_eq_nil_iff] at hnil
      exact hspace (of_decide_eq_true (hnil c hc))
    simp [List.dropWhile_append, hne]
  unfold Tree.isFenced showsFence
  rw [Option.bind_some, hslice]
  dsimp only
  rw [hspaces, isPrefixOf_append (by decide) htail, isPrefixOf_append (by decide) htail]

/-! ## What comes out -/

/-- No token starts with the marker of a fence. -/
theorem readAll_marker {text : List Char} {marker : Char} (hmarker : marker = '`' ∨ marker = '~')
    (htext : (text.dropWhile (· = ' ')).head? = some marker) {fuel : Nat}
    (hfuel : text.length ≤ fuel) (place : Nat) :
    ∃ fault, Token.readAll fuel place text = .error fault := by
  induction text generalizing fuel place with
  | nil => cases htext
  | cons c text ih =>
    obtain ⟨fuel, rfl⟩ : ∃ n, fuel = n + 1 := ⟨fuel - 1, by simp at hfuel; omega⟩
    by_cases hc : c = ' '
    · subst hc
      obtain ⟨fault, hfault⟩ := ih htext (by simpa using hfuel) (place + 1)
      exact ⟨fault, by rw [Token.readAll, if_pos (by decide), hfault]⟩
    · obtain rfl : c = marker := by simpa [hc] using htext
      have hread : Token.read c text = .error [c] := by
        rcases hmarker with rfl | rfl <;>
          simp [Token.read, Token.isIdentifierStart, Token.number?, Token.digits,
            List.span_eq_takeWhile_dropWhile]
      have hspace : Token.isSpace c = false := by
        rcases hmarker with rfl | rfl <;> decide
      rw [Token.readAll, if_neg (by simp [hspace]), hread]
      exact ⟨_, rfl⟩

theorem exists_marker (h : showsFence first = true) :
    ∃ marker, (marker = '`' ∨ marker = '~') ∧ (first.dropWhile (· = ' ')).head? = some marker := by
  rcases Bool.or_eq_true_iff.mp h with hticks | htildes
  · obtain ⟨more, hmore⟩ := List.isPrefixOf_iff_prefix.mp hticks
    exact ⟨'`', Or.inl rfl, by rw [← hmore]; rfl⟩
  · obtain ⟨more, hmore⟩ := List.isPrefixOf_iff_prefix.mp htildes
    exact ⟨'~', Or.inr rfl, by rw [← hmore]; rfl⟩

/-- Lines that show a fence are not blank, and they are no expression. -/
theorem evaluate_marker (rest : List (List Char)) (h : showsFence first = true) :
    Text.isBlankText (Text.join ['\n'] (first :: rest)) = false ∧
      ∀ env, ∃ e, Expr.evaluate (String.ofList (Text.join ['\n'] (first :: rest))) env =
        .error e := by
  obtain ⟨marker, hmarker, hhead⟩ := exists_marker h
  have hjoin : ((Text.join ['\n'] (first :: rest)).dropWhile (· = ' ')).head? = some marker := by
    rw [Markdown.join_lineFeed, List.dropWhile_append]
    cases hfirst : first.dropWhile (· = ' ') with
    | nil => rw [hfirst] at hhead; cases hhead
    | cons c more => rw [hfirst] at hhead; simpa using hhead
  have hmem : marker ∈ Text.join ['\n'] (first :: rest) :=
    (List.dropWhile_suffix _).subset (List.mem_of_head? hjoin)
  obtain ⟨fault, hfault⟩ := readAll_marker hmarker hjoin (Nat.le_refl _) 0
  have hread : Expr.read (Text.join ['\n'] (first :: rest)) = .error fault := by
    rw [Expr.read, Token.tokens, hfault]
  refine ⟨?_, fun env => ?_⟩
  · rw [Text.isBlankText, List.all_eq_false]
    exact ⟨marker, hmem, by rcases hmarker with rfl | rfl <;> decide⟩
  · rw [Expr.evaluate, Expr.parse, String.toList_ofList, hread]
    exact ⟨_, rfl⟩

/-- The tree of indented code: one block, which is a fence if its first line shows one. -/
theorem root_indentedCode (h : ∀ line ∈ first :: rest, IsCodeLine line) :
    ∃ outer inner, (Document.ofMarkdown (String.ofList (indentedCode (first :: rest)))).root =
      .mk .document outer
        [.mk (if showsFence first then
            .fence (.ofParsed none "" (String.ofList (Text.join ['\n'] (first :: rest))))
          else .other "code") inner
          [.leaf (String.ofList (Text.join ['\n'] (first :: rest))) none]] := by
  refine ⟨some ⟨0, Text.byteLength (indentedCode (first :: rest))⟩,
    some ⟨0, Text.byteLength (indentedCode (first :: rest)) - 1⟩, ?_⟩
  rw [Document.ofMarkdown, String.toList_ofList, Tree.ofMarkdown,
    Markdown.ofMarkdown_indentedCode h]
  simp only [Tree.ofNode, Tree.ofNodes, isFenced_indentedCode h]
  rfl

/-- A template that is no expression stops the walk. -/
theorem fill_of_fence (ns : Namespace) {options : Template.Options} {d : Document}
    {outer inner : Option Text.Span} {f : Fence} {value : String}
    (hroot : d.root = .mk .document outer [.mk (.fence f) inner [.leaf value none]])
    (haccepts : options.accepts f = true) (hvalue : Text.isBlankText value.toList = false)
    (heval : ∀ env, ∃ e, Expr.evaluate value env = .error e) :
    ∃ e, d.fill ns options = .error e := by
  obtain ⟨e, he⟩ := heval (Template.environment ns options d.root)
  have hpaths : d.root.paths = [[], [0], [0, 0]] := by rw [hroot]; rfl
  refine ⟨e, ?_⟩
  have hevaluate : Template.evaluate value (Template.environment ns options d.root) = .error e := by
    rw [Template.evaluate, he]
  have hdocument : (d.root.get? []).map Tree.kind = some .document := by rw [hroot]; rfl
  have hfence : (d.root.get? [0]).map Tree.kind = some (.fence f) := by rw [hroot]; rfl
  have htext : (d.root.get? [0, 0]).map Tree.kind = some (.text value) := by rw [hroot]; rfl
  have hvisit : Template.fill ns options d.root = (d.root, some e) := by
    have hchildren : d.root.children.isEmpty = false := by rw [hroot]; rfl
    rw [Template.fill, hchildren, hpaths, if_neg Bool.false_ne_true]
    rw [Template.visit, hdocument]
    dsimp only
    rw [Template.visit, hfence]
    dsimp only
    rw [Template.visit, htext]
    simp only [haccepts, if_true, hvalue, Bool.false_eq_true, if_false]
    rw [hevaluate]
  rw [Document.fill, hvisit]

/-- **Indented code is a template exactly when its first line shows the marker of a fence.** If it
shows none, nothing is evaluated and the text stays as it is, whatever the other lines say. If it
shows one, the lines are taken for an expression, and they are none. -/
theorem renderMarkdown_indentedCode (h : ∀ line ∈ first :: rest, IsCodeLine line) :
    let source := String.ofList (indentedCode (first :: rest))
    let root := (Document.ofMarkdown source).root
    (showsFence first = false → root.fences = [] ∧ ∀ ns template,
      Template.expressions template root = [] ∧
        Document.renderMarkdown ns template .standard source = .ok source) ∧
    (showsFence first = true → root.fences ≠ [] ∧ ∀ ns template layout, template.tag = none →
      ∃ e, Document.renderMarkdown ns template layout source = .error e) := by
  intro source root
  obtain ⟨outer, inner, hroot⟩ := root_indentedCode h
  refine ⟨?_, ?_⟩
  · intro hshows
    rw [hshows] at hroot
    have hfences : root.fences = [] := by
      show (Document.ofMarkdown source).root.fences = []
      rw [hroot]
      rfl
    refine ⟨hfences, ?_⟩
    intro ns template
    have hnone : (Document.ofMarkdown source).Templateless template := by
      intro t ht
      rw [hfences] at ht
      cases ht
    refine ⟨?_, ?_⟩
    · rw [Template.expressions_eq, List.filterMap_eq_nil_iff]
      exact Document.expression?_of_templateless hnone
    · have hread : (Document.ofMarkdown source).root.AsRead := Tree.asRead_ofNode _ _
      rw [Document.renderMarkdown, Document.fill_of_templateless ns hread hnone]
      exact congrArg Except.ok (Document.render_of_asRead hread)
  · intro hshows
    rw [hshows] at hroot
    refine ⟨?_, ?_⟩
    · show (Document.ofMarkdown source).root.fences ≠ []
      rw [hroot]
      rw [Tree.fences, Tree.nodes_eq_preorder]
      simp [Tree.preorder, Tree.preorderList, Tree.leaf, Tree.fence?, Tree.kind]
    · intro ns template layout htag
      have haccepts : ∀ f, template.accepts f = true := by
        intro f
        rw [Template.Options.accepts, htag]
      obtain ⟨hblank, heval⟩ := evaluate_marker rest hshows
      obtain ⟨e, he⟩ := fill_of_fence ns hroot (haccepts _) (by rwa [String.toList_ofList]) heval
      exact ⟨e, by rw [Document.renderMarkdown, he]⟩

theorem isCodeLine_ticks : IsCodeLine ['`', '`', '`'] :=
  ⟨by simp [Text.isUnbroken], '`', by simp⟩

theorem isCodeLine_tildes : IsCodeLine ['\t', '~', '~', '~'] :=
  ⟨by simp [Text.isUnbroken], '~', by simp⟩

/-- Code whose second line shows a fence, and code whose first line does. -/
theorem renderMarkdown_indentedCode_markers :
    Document.renderMarkdown .empty .standard .standard "    \t~~~\n    ```\n" =
        .ok "    \t~~~\n    ```\n" ∧
      ∃ e, Document.renderMarkdown .empty .standard .standard "    ```\n" = .error e := by
  have hsecond : ∀ line ∈ [['\t', '~', '~', '~'], ['`', '`', '`']], IsCodeLine line := by
    simp [isCodeLine_ticks, isCodeLine_tildes]
  have hfirst : ∀ line ∈ [['`', '`', '`']], IsCodeLine line := by
    simp [isCodeLine_ticks]
  exact ⟨(((renderMarkdown_indentedCode hsecond).1 (by decide)).2 .empty .standard).2,
    ((renderMarkdown_indentedCode hfirst).2 (by decide)).2 .empty .standard .standard rfl⟩

/-- A fence that is shown in indented code is taken for a template. -/
theorem indentedCode_not_untouched : ¬ ∀ lines : List (List Char), lines ≠ [] →
    (∀ line ∈ lines, IsCodeLine line) → ∀ ns template,
      Document.renderMarkdown ns template .standard (String.ofList (indentedCode lines)) =
        .ok (String.ofList (indentedCode lines)) := by
  intro h
  have hsame := h [['`', '`', '`']] (by simp) (by simp [isCodeLine_ticks]) .empty .standard
  have herror : (Document.renderMarkdown .empty .standard .standard
      (String.ofList (indentedCode [['`', '`', '`']]))).isOk = false := by
    decide +kernel
  rw [hsame] at herror
  cases herror

end LiveDoc
