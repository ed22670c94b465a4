import Mathlib.Data.List.Basic
import LiveDoc.Proofs.Markdown.Codeless
import LiveDoc.Proofs.Tree.Traversal
import LiveDoc.Tree.Markdown

/-!
# The fences of a Markdown text

A tree is made of nodes, nodes are made of blocks, and the code blocks stay in order on the way. So
the fences of a text are the code blocks of its blocks whose source shows the marker of a fence
behind spaces (`Tree.fences_ofMarkdown`).

Code that starts with the marker is fenced (`IsFencedCode`). Indented code starts with spaces, and
the marker may stand behind them (`ShowsFence`). So the fences below a node are its fenced code
exactly when no code below it shows a fence that way (`Tree.fences_eq_iff`).
-/

namespace LiveDoc

namespace Markdown

open Text (Span)

/-- A block of code. -/
structure Code where
  span : Span
  language : Option (List Glyph)
  details : Option (List Glyph)
  value : List Char

/-- The node of a block of code. -/
def Code.node (c : Code) : Node :=
  .code (some c.span) (c.language.map decodedText) (c.details.map decodedText)
    (String.ofList c.value)

mutual

/-- The blocks of code in a block, in order. -/
def Block.codes : Block → List Code
  | .container _ _ children => codesOf children
  | .code span language details value => [⟨span, language, details, value⟩]
  | .text _ _ _ => []
  | .bare _ _ => []
  | .definition _ _ => []
  | .table _ _ => []

/-- The blocks of code in several blocks, in order. -/
def codesOf : List Block → List Code
  | [] => []
  | b :: rest => b.codes ++ codesOf rest

end

theorem codesOf_append (bs cs : List Block) : codesOf (bs ++ cs) = codesOf bs ++ codesOf cs := by
  induction bs with
  | nil => rw [List.nil_append, codesOf, List.nil_append]
  | cons b rest ih => rw [List.cons_append, codesOf, codesOf, ih, List.append_assoc]

theorem codes_groupNodes (group : Option Char × List Node) :
    codesOfNodes (groupNodes group) = codesOfNodes group.2 := by
  obtain ⟨marker, ns⟩ := group
  cases marker with
  | none => rfl
  | some m => simp [groupNodes, codesOfNodes, Node.codes]

theorem codes_addItem (marker : Option Char) (n : Node) (groups : List (Option Char × List Node)) :
    codesOfNodes ((addItem marker n groups).flatMap groupNodes) =
      n.codes ++ codesOfNodes (groups.flatMap groupNodes) := by
  cases groups with
  | nil => simp [addItem, codes_groupNodes, codesOfNodes]
  | cons group rest =>
    obtain ⟨m, ns⟩ := group
    rw [addItem]
    split
    · simp [codesOfNodes_append, codes_groupNodes, codesOfNodes]
    · simp [codesOfNodes_append, codes_groupNodes, codesOfNodes]

theorem codes_dropBlank (start : Nat) {ns : List Node} (h : codesOfNodes ns = []) :
    codesOfNodes (Inline.dropBlank start ns).2 = [] := by
  unfold Inline.dropBlank
  split
  · rename_i span value rest
    have hrest : codesOfNodes rest = [] := h
    dsimp only
    split
    · split <;> exact hrest
    · split <;> exact hrest
    · split <;> exact hrest
  · exact h

theorem codes_textNode (labels : Labels) (first : Bool) (element : Element) (span : Span)
    (glyphs : List Glyph) : (textNode labels first element span glyphs).codes = [] := by
  unfold textNode
  split
  · exact codes_dropBlank _ (Inline.codes_nodesAfter labels false _ _)
  · exact Inline.codes_nodesAfter labels false none glyphs

theorem codes_rows (labels : Labels) (rows : List (Span × List Table.Cell)) :
    codesOfNodes (rows.map (rowNode labels)) = [] := by
  have hcells : ∀ cells : List Table.Cell,
      codesOfNodes (cells.map fun c =>
        .element .tableCell (some c.span) (Inline.cellNodes labels c.text)) = [] := by
    intro cells
    induction cells with
    | nil => rfl
    | cons c rest ih =>
      rw [List.map_cons, codesOfNodes, ih, Node.codes, Inline.cellNodes, Inline.codes_nodesAfter]
      rfl
  induction rows with
  | nil => rfl
  | cons row rest ih => rw [List.map_cons, codesOfNodes, ih, rowNode, Node.codes, hcells]; rfl

mutual

/-- The node of a block has the block's code. -/
theorem Block.codes_node (labels : Labels) (first : Bool) :
    ∀ b : Block, (b.node labels first).codes = b.codes.map Code.node
  | .container c span children => by
    cases c <;> exact codes_groupsOf labels _ children
  | .text element span glyphs => codes_textNode labels first element span glyphs
  | .bare _ _ => rfl
  | .definition _ _ => rfl
  | .code _ _ _ _ => rfl
  | .table span rows => codes_rows labels rows

/-- The nodes of several blocks have the blocks' code. -/
theorem codes_groupsOf (labels : Labels) (first : Bool) :
    ∀ blocks : List Block, codesOfNodes ((groupsOf labels first blocks).flatMap groupNodes) =
      (codesOf blocks).map Code.node
  | [] => rfl
  | b :: rest => by
    rw [groupsOf.eq_def]
    dsimp only
    rw [codes_addItem, Block.codes_node labels first b, codes_groupsOf labels false rest,
      codesOf, List.map_append]

end

/-- The code blocks of a text are those of its blocks. -/
theorem codes_ofMarkdown (source : List Char) :
    (Node.ofMarkdown source).codes =
      (codesOf (Block.ofLines (Line.ofText source))).map Code.node :=
  codes_groupsOf _ _ _

end Markdown

namespace Tree

open Markdown (Node Code codesOf codesOfNodes)

/-- Whether a node is a fence in a source. -/
def isFence (source : List Char) (n : Node) : Bool := isFenced source n.span

mutual

/-- The fences of a node's tree are its code blocks that are fenced. -/
theorem fences_ofNode (source : List Char) :
    ∀ n : Node, (ofNode source n).preorder.filter (fun t => t.fence?.isSome) =
      (n.codes.filter (isFence source)).map (ofNode source)
  | .code span language details value => by
    cases hfenced : isFenced source span with
    | true =>
      simp [Node.codes, isFence, Node.span, hfenced, preorder, preorderList, leaf, fence?, kind,
        ofNode]
    | false =>
      simp [Node.codes, isFence, Node.span, hfenced, preorder, preorderList, leaf, fence?, kind,
        ofNode]
  | .inlineCode span value => by
    simp [ofNode, Node.codes, preorder, preorderList, leaf, fence?, kind]
  | .text span value => by
    simp [ofNode, Node.codes, preorder, preorderList, leaf, fence?, kind]
  | .element e span children => by
    have hchildren := fences_ofNodes source children
    rw [Node.codes, ← hchildren]
    cases e <;> simp [ofNode, preorder, fence?, kind]

/-- The fences of the trees of several nodes are their code blocks that are fenced. -/
theorem fences_ofNodes (source : List Char) :
    ∀ ns : List Node, (preorderList (ofNodes source ns)).filter (fun t => t.fence?.isSome) =
      ((codesOfNodes ns).filter (isFence source)).map (ofNode source)
  | [] => rfl
  | n :: rest => by
    rw [ofNodes, preorderList, List.filter_append, fences_ofNode source n,
      fences_ofNodes source rest, codesOfNodes, List.filter_append, List.map_append]

end

/-! ## Fenced code and code that shows a fence -/

/-- Whether a text starts with the marker of a fence. -/
def startsFence (text : List Char) : Bool :=
  ['`', '`', '`'].isPrefixOf text || ['~', '~', '~'].isPrefixOf text

/-- The node is fenced code of a source: its text there starts with the marker. -/
def IsFencedCode (source : List Char) (n : Node) : Prop :=
  ∃ text ∈ n.span.bind (Text.slice source), startsFence text = true

/-- The text of the node starts with a space, and the marker of a fence is what comes first behind
the spaces. -/
def ShowsFence (source : List Char) (n : Node) : Prop :=
  ∃ text ∈ n.span.bind (Text.slice source),
    text.head? = some ' ' ∧ startsFence (text.dropWhile (· = ' ')) = true

instance (source : List Char) (n : Node) : Decidable (IsFencedCode source n) :=
  inferInstanceAs (Decidable (∃ text ∈ n.span.bind (Text.slice source), startsFence text = true))

instance (source : List Char) (n : Node) : Decidable (ShowsFence source n) :=
  inferInstanceAs (Decidable (∃ text ∈ n.span.bind (Text.slice source),
    text.head? = some ' ' ∧ startsFence (text.dropWhile (· = ' ')) = true))

/-- What starts with the marker of a fence starts with a backtick or a tilde. -/
theorem head?_of_startsFence {text : List Char} (h : startsFence text = true) :
    text.head? = some '`' ∨ text.head? = some '~' := by
  refine (Bool.or_eq_true_iff.mp h).imp (fun hticks => ?_) (fun htildes => ?_)
  · obtain ⟨rest, rfl⟩ := List.isPrefixOf_iff_prefix.mp hticks
    rfl
  · obtain ⟨rest, rfl⟩ := List.isPrefixOf_iff_prefix.mp htildes
    rfl

/-- A space in front of a marker does not belong to it. -/
theorem startsFence_space (text : List Char) : startsFence (' ' :: text) = false := by
  simp [startsFence, List.isPrefixOf]

/-- Code that shows a fence behind spaces is not fenced. -/
theorem ShowsFence.not_isFencedCode {source : List Char} {c : Node} (h : ShowsFence source c) :
    ¬ IsFencedCode source c := by
  obtain ⟨text, htext, hspace, -⟩ := h
  rintro ⟨text', htext', hstarts⟩
  obtain rfl := Option.mem_unique htext htext'
  obtain ⟨rest, rfl⟩ := List.head?_eq_some_iff.mp hspace
  rw [startsFence_space] at hstarts
  cases hstarts

/-- What is taken for a fence starts with a marker, or shows one behind spaces. -/
theorem isFenced_iff {source : List Char} {span : Option Text.Span} :
    isFenced source span = true ↔
      (∃ text ∈ span.bind (Text.slice source), startsFence text = true) ∨
      ∃ text ∈ span.bind (Text.slice source),
        text.head? = some ' ' ∧ startsFence (text.dropWhile (· = ' ')) = true := by
  unfold isFenced
  cases span.bind (Text.slice source) with
  | none => simp
  | some text =>
    change startsFence (text.dropWhile (· = ' ')) = true ↔ _
    simp only [Option.mem_def, Option.some.injEq, exists_eq_left']
    by_cases hspace : text.head? = some ' '
    · obtain ⟨rest, rfl⟩ := List.head?_eq_some_iff.mp hspace
      simp [startsFence_space]
    · have hstays : text.dropWhile (· = ' ') = text := by
        cases text with
        | nil => rfl
        | cons c rest => exact List.dropWhile_cons_of_neg (by simpa using hspace)
      simp [hstays, hspace]

/-- The fences below a node are its code that is fenced or shows a fence. -/
theorem fences_eq (source : List Char) (n : Node) : (ofNode source n).fences =
    (n.codes.filter fun c => IsFencedCode source c ∨ ShowsFence source c).map (ofNode source) := by
  rw [fences, nodes_eq_preorder, fences_ofNode]
  congr 1
  refine List.filter_congr fun c _ => ?_
  rw [Bool.eq_iff_iff, isFence, isFenced_iff, decide_eq_true_iff]
  rfl

/-- The fences below a node are its fenced code exactly when no code below it shows a fence. -/
theorem fences_eq_iff (source : List Char) (n : Node) :
    (ofNode source n).fences = (n.codes.filter (IsFencedCode source ·)).map (ofNode source) ↔
      ∀ c ∈ n.codes, ¬ ShowsFence source c := by
  rw [fences_eq]
  constructor
  · -- the fenced code is all there is, since it is a part of it and as long
    intro h c hc hshows
    have hsublist : (n.codes.filter (IsFencedCode source ·)).Sublist
        (n.codes.filter fun c => IsFencedCode source c ∨ ShowsFence source c) :=
      List.monotone_filter_right _ fun c hc => decide_eq_true (Or.inl (of_decide_eq_true hc))
    have hlength := congrArg List.length h
    rw [List.length_map, List.length_map] at hlength
    have hmem : c ∈ n.codes.filter fun c => IsFencedCode source c ∨ ShowsFence source c :=
      List.mem_filter.mpr ⟨hc, decide_eq_true (Or.inr hshows)⟩
    rw [← hsublist.eq_of_length hlength.symm] at hmem
    exact hshows.not_isFencedCode (of_decide_eq_true (List.mem_filter.mp hmem).2)
  · intro h
    congr 1
    refine List.filter_congr fun c hc => ?_
    simp [h c hc]

/-- The fences of a Markdown text are its blocks of code that are fenced. -/
theorem fences_ofMarkdown (source : List Char) :
    (ofMarkdown source).fences =
      ((codesOf (Markdown.Block.ofLines (Markdown.Line.ofText source))).filter
        fun c => isFenced source (some c.span)).map fun c => ofNode source c.node := by
  rw [fences, nodes_eq_preorder, ofMarkdown, fences_ofNode, Markdown.codes_ofMarkdown,
    List.filter_map, List.map_map]
  rfl

end Tree

end LiveDoc
