import Mathlib.Data.List.Forall2
import LiveDoc.Proofs.Markdown.ShiftStep
import LiveDoc.Proofs.Text.Slice
import LiveDoc.Layout.Document

/-!
# The kinds of the blocks of a document

`Document.blockNames` tells what the blocks outside of all others are. It depends on the marks of
the blocks that were read, and for code on the text that stands there.
-/

namespace LiveDoc

open Text (Span byteLength byteLength_append slice)

/-- What a node is, without what it says. -/
def Tree.name (t : Tree) : String :=
  match t.kind with
  | .document => "document"
  | .fence _ => "fence"
  | .text _ => "text"
  | .other name => name

/-- What the blocks of a document are, in order. -/
def Document.blockNames (d : Document) : List String := d.root.children.map Tree.name

namespace Markdown

namespace Mark

/-- A node that is what a mark tells. -/
def node : Mark → Node
  | .container .quote => .element .blockquote none []
  | .container (.item _ _ _) => .element .listItem none []
  | .container (.footnote _) => .element .footnoteDefinition none []
  | .element e => .element e none []
  | .code span => .code (some span) none none ""

/-- The marker of a list item. -/
def marker : Mark → Option Char
  | .container (.item marker _ _) => some marker
  | _ => none

/-- What a block with a mark is in a text, and its marker if it belongs to a list. -/
def kind (source : List Char) (m : Mark) : Option Char × String :=
  (m.marker, (Tree.ofNode source m.node).name)

end Mark

variable {source target : List Char}

/-! ## Names -/

theorem name_element (e : Element) (span : Option Span) (nodes : List Node) :
    (Tree.ofNode source (.element e span nodes)).name =
      if e = .root then "document" else e.name := by
  cases e <;> rfl

theorem name_code (span : Option Span) (language details : Option String) (value : String) :
    (Tree.ofNode source (.code span language details value)).name =
      if Tree.isFenced source span then "fence" else "code" := by
  rw [Tree.ofNode]
  cases Tree.isFenced source span <;> rfl

/-- A mark tells what a block is. -/
theorem Block.name_node (labels : Labels) (first : Bool) (b : Block) :
    (Tree.ofNode source (b.node labels first)).name = (b.mark.kind source).2 := by
  cases b with
  | container c span children =>
    cases c <;> simp only [node, mark, Mark.kind, Mark.node, name_element]
  | text e span glyphs =>
    simp only [node, textNode, mark, Mark.kind, Mark.node, name_element]
    split <;> exact name_element _ _ _
  | code span language details value => simp only [node, mark, Mark.kind, Mark.node, name_code]
  | _ => simp only [node, mark, Mark.kind, Mark.node, name_element]

/-! ## Groups -/

/-- The marker that keeps the items of a list together. -/
def Block.marker : Block → Option Char
  | .container (.item marker _ _) _ _ => some marker
  | _ => none

theorem Block.marker_eq (b : Block) : b.marker = b.mark.marker := by
  cases b with
  | container c span children => cases c <;> rfl
  | _ => rfl

theorem groupsOf_cons (labels : Labels) (first : Bool) (b : Block) (rest : List Block) :
    groupsOf labels first (b :: rest) =
      addItem b.marker (b.node labels first) (groupsOf labels false rest) := by
  cases b with
  | container c span children => cases c <;> simp [groupsOf, Block.marker]
  | _ => simp [groupsOf, Block.marker]

/-- Nodes that are the same in two texts, but for what they say. -/
def SameName (source target : List Char) (n m : Node) : Prop :=
  (Tree.ofNode source n).name = (Tree.ofNode target m).name

/-- Groups of such nodes. -/
def SameGroup (source target : List Char) (g h : Option Char × List Node) : Prop :=
  g.1 = h.1 ∧ List.Forall₂ (SameName source target) g.2 h.2

theorem sameGroup_addItem {marker : Option Char} {n m : Node}
    {gs hs : List (Option Char × List Node)} (hname : SameName source target n m)
    (h : List.Forall₂ (SameGroup source target) gs hs) :
    List.Forall₂ (SameGroup source target) (addItem marker n gs) (addItem marker m hs) := by
  cases h with
  | nil => exact .cons ⟨rfl, .cons hname .nil⟩ .nil
  | @cons g g' gs hs hg hrest =>
    obtain ⟨a, ns⟩ := g
    obtain ⟨a', ms⟩ := g'
    obtain ⟨rfl, hns⟩ : a = a' ∧ List.Forall₂ (SameName source target) ns ms := hg
    have hkept : SameGroup source target (a, ns) (a, ms) := ⟨rfl, hns⟩
    have hlonger : SameGroup source target (a, n :: ns) (a, m :: ms) := ⟨rfl, .cons hname hns⟩
    have halone : SameGroup source target (marker, [n]) (marker, [m]) := ⟨rfl, .cons hname .nil⟩
    rw [addItem, addItem]
    split
    · exact .cons hlonger hrest
    · exact .cons halone (.cons hkept hrest)

/-- Blocks of the same kinds make groups of nodes with the same names. -/
theorem sameGroup_groupsOf (labels labels' : Labels) (first first' : Bool) {bs cs : List Block}
    (h : (marks bs).map (Mark.kind source) = (marks cs).map (Mark.kind target)) :
    List.Forall₂ (SameGroup source target) (groupsOf labels first bs)
      (groupsOf labels' first' cs) := by
  induction bs generalizing cs first first' with
  | nil =>
    obtain rfl : cs = [] := by simpa [marks] using h.symm
    exact .nil
  | cons b rest ih =>
    cases cs with
    | nil => simp at h
    | cons c more =>
      simp only [marks_cons, List.map_cons, List.cons.injEq] at h
      obtain ⟨hkind, hrest⟩ := h
      have hmarker : b.marker = c.marker := by
        rw [b.marker_eq, c.marker_eq]
        exact congrArg Prod.fst hkind
      rw [groupsOf_cons, groupsOf_cons, hmarker]
      refine sameGroup_addItem ?_ (ih false false hrest)
      rw [SameName, Block.name_node, Block.name_node, hkind]

/-- The names of the nodes of groups. -/
theorem map_name_groupNodes {gs hs : List (Option Char × List Node)}
    (h : List.Forall₂ (SameGroup source target) gs hs) :
    (gs.flatMap groupNodes).map (fun n => (Tree.ofNode source n).name) =
      (hs.flatMap groupNodes).map fun n => (Tree.ofNode target n).name := by
  induction h with
  | nil => rfl
  | @cons g g' gs hs hg _ ih =>
    obtain ⟨a, ns⟩ := g
    obtain ⟨a', ms⟩ := g'
    obtain ⟨rfl, hns⟩ : a = a' ∧ List.Forall₂ (SameName source target) ns ms := hg
    rw [List.flatMap_cons, List.flatMap_cons, List.map_append, List.map_append, ih]
    congr 1
    cases a with
    | none =>
      show ns.map _ = ms.map _
      induction hns with
      | nil => rfl
      | cons hname _ ih => rw [List.map_cons, List.map_cons, ih, hname]
    | some marker =>
      simp only [groupNodes, List.map_cons, List.map_nil, name_element]

theorem ofNodes_eq_map (source : List Char) (ns : List Node) :
    Tree.ofNodes source ns = ns.map (Tree.ofNode source) := by
  induction ns with
  | nil => rfl
  | cons n rest ih => rw [Tree.ofNodes, ih, List.map_cons]

end Markdown

namespace Document

open Markdown (Block marks Mark Line)

/-- The nodes of the blocks of a document. -/
theorem children_ofMarkdown (source : String) :
    (ofMarkdown source).root.children =
      ((Markdown.groupsOf (Markdown.labelsOf (Block.ofLines (Line.ofText source.toList))) false
        (Block.ofLines (Line.ofText source.toList))).flatMap Markdown.groupNodes).map
          (Tree.ofNode source.toList) := by
  rw [ofMarkdown, Tree.ofMarkdown, Markdown.Node.ofMarkdown, Tree.ofNode, Tree.children,
    Markdown.ofNodes_eq_map]

/-- Documents with blocks of the same kinds. -/
theorem blockNames_eq {source target : String}
    (h : (marks (Block.ofLines (Line.ofText source.toList))).map (Mark.kind source.toList) =
      (marks (Block.ofLines (Line.ofText target.toList))).map (Mark.kind target.toList)) :
    (ofMarkdown source).blockNames = (ofMarkdown target).blockNames := by
  rw [blockNames, blockNames, children_ofMarkdown, children_ofMarkdown, List.map_map, List.map_map]
  exact Markdown.map_name_groupNodes (Markdown.sameGroup_groupsOf _ _ _ _ h)

end Document

/-! ## Kinds in longer texts -/

namespace Markdown

/-- What is cut out of a text behind another one. -/
theorem slice_append_shift (before text : List Char) (span : Span) :
    slice (before ++ text) ⟨span.start + byteLength before, span.stop + byteLength before⟩ =
      slice text span := by
  refine Option.ext fun old => ?_
  simp only [Text.slice_eq_some_iff]
  constructor
  · rintro ⟨front, after, hwhole, hstart, hstop⟩
    have hstart' : span.start + byteLength before = byteLength front := hstart
    have hstop' : span.stop + byteLength before = byteLength front + byteLength old := hstop
    rcases List.append_eq_append_iff.mp hwhole with ⟨more, rfl, htext⟩ | ⟨more, hbefore, htext⟩
    · rw [byteLength_append] at hstart' hstop'
      exact ⟨more, after, htext, by omega, by omega⟩
    · rw [hbefore, byteLength_append] at hstart'
      obtain rfl : more = [] := Text.byteLength_eq_zero_iff.mp (by omega)
      obtain rfl : before = front := by rw [hbefore, List.append_nil]
      exact ⟨[], after, htext.symm, by rw [byteLength]; omega, by rw [byteLength]; omega⟩
  · rintro ⟨front, after, hwhole, hstart, hstop⟩
    refine ⟨before ++ front, after, by rw [hwhole, List.append_assoc], ?_, ?_⟩
    · rw [byteLength_append, hstart, Nat.add_comm]
    · rw [byteLength_append, hstop]
      show _ + byteLength before = _
      omega

/-- What is cut out of a text does not depend on what comes behind. -/
theorem slice_append_left (text more : List Char) {span : Span}
    (hstop : span.stop ≤ byteLength text) : slice (text ++ more) span = slice text span := by
  refine Option.ext fun old => ⟨fun h => Text.slice_front h hstop, fun h => ?_⟩
  obtain ⟨before, after, hwhole, hstart, hstop⟩ := Text.slice_eq_some_iff.mp h
  exact Text.slice_eq_some_iff.mpr ⟨before, after ++ more, by rw [hwhole]; simp, hstart, hstop⟩

/-- Marks of blocks that are the same in texts that start with `source` and with `target`. -/
def SameKinds (source : List Char) (ms : List Mark) (target : List Char) (ns : List Mark) : Prop :=
  ∀ s t, ms.map (Mark.kind (source ++ s)) = ns.map (Mark.kind (target ++ t))

theorem Mark.kind_shift {before text : List Char} {m : Mark}
    (hm : ∀ span, m = .code span → span.stop ≤ byteLength text) (more : List Char) :
    (m.shift (byteLength before)).kind (before ++ (text ++ more)) = m.kind text := by
  cases m with
  | code span =>
    have hslice := slice_append_shift before (text ++ more) span
    rw [slice_append_left text more (hm span rfl)] at hslice
    simp only [kind, Mark.shift, node, name_code, Tree.isFenced, Option.bind_some, hslice]
    rfl
  | container c => cases c <;> simp only [kind, Mark.shift, node, name_element]
  | element e => simp only [kind, Mark.shift, node, name_element]

namespace SameKinds

variable {ms ns : List Mark}

theorem nil : SameKinds source [] target [] := fun _ _ => rfl

/-- The same blocks in the same text behind. -/
theorem append (h : SameKinds source ms target ns) {text : List Char} {bs : List Mark}
    (hbs : ∀ m ∈ bs, ∀ span, m = .code span → span.stop ≤ byteLength text) :
    SameKinds (source ++ text) (bs.map (Mark.shift (byteLength source)) ++ ms)
      (target ++ text) (bs.map (Mark.shift (byteLength target)) ++ ns) := by
  intro s t
  have hmoved : ∀ before more,
      (bs.map (Mark.shift (byteLength before))).map (Mark.kind (before ++ (text ++ more))) =
        bs.map (Mark.kind text) := by
    intro before more
    rw [List.map_map]
    exact List.map_congr_left fun m hm => Mark.kind_shift (hbs m hm) more
  rw [List.map_append, List.map_append, List.append_assoc, List.append_assoc, hmoved, hmoved, h]

/-- A block of the same kind behind. -/
theorem cons (h : SameKinds source ms target ns) (s t : List Char) (e : Element) :
    SameKinds (source ++ s) (.element e :: ms) (target ++ t) (.element e :: ns) := by
  intro s' t'
  have hkind :
      (Mark.element e).kind (source ++ s ++ s') = (Mark.element e).kind (target ++ t ++ t') := by
    simp only [Mark.kind, Mark.node, name_element]
  rw [List.map_cons, List.map_cons, hkind, List.append_assoc, List.append_assoc, h]

end SameKinds

end Markdown

end LiveDoc
