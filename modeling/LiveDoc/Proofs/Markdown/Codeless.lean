import LiveDoc.Markdown.Inline

/-!
# Running text holds no code blocks

`Node.codes` lists the code blocks of a node. Blocks of code are never made of running text:
whatever pieces text is read into, and however they are matched, the nodes hold no code block
(`Inline.codes_nodes`). The invariant of all steps is `Piece.Codeless`.
-/

namespace LiveDoc.Markdown

mutual

/-- The code blocks of a node in document order. -/
def Node.codes : Node → List Node
  | .code span language details value => [.code span language details value]
  | .inlineCode _ _ => []
  | .text _ _ => []
  | .element _ _ children => codesOfNodes children

/-- The code blocks of several nodes. -/
def codesOfNodes : List Node → List Node
  | [] => []
  | n :: rest => n.codes ++ codesOfNodes rest

end

theorem codesOfNodes_append (ms ns : List Node) :
    codesOfNodes (ms ++ ns) = codesOfNodes ms ++ codesOfNodes ns := by
  induction ms with
  | nil => rw [List.nil_append, codesOfNodes, List.nil_append]
  | cons m rest ih => rw [List.cons_append, codesOfNodes, codesOfNodes, ih, List.append_assoc]

namespace Piece

/-- No piece is a node that holds code blocks. -/
def Codeless (ps : List Piece) : Prop := ∀ n, .node n ∈ ps → n.codes = []

variable {p : Piece} {ps qs : List Piece}

theorem codeless_nil : Codeless [] := fun _ hn => absurd hn List.not_mem_nil

theorem Codeless.tail (h : Codeless (p :: ps)) : Codeless ps :=
  fun n hn => h n (List.mem_cons_of_mem p hn)

theorem Codeless.cons_node {n : Node} (hn : n.codes = []) (h : Codeless ps) :
    Codeless (.node n :: ps) := by
  intro m hm
  rcases List.mem_cons.mp hm with heq | hm
  · rw [Piece.node.inj heq, hn]
  · exact h m hm

theorem Codeless.cons (hp : ∀ n, p ≠ .node n) (h : Codeless ps) : Codeless (p :: ps) := by
  intro n hn
  rcases List.mem_cons.mp hn with heq | hn
  · exact absurd heq.symm (hp n)
  · exact h n hn

theorem Codeless.append (hp : Codeless ps) (hq : Codeless qs) : Codeless (ps ++ qs) := by
  intro n hn
  rcases List.mem_append.mp hn with hn | hn
  · exact hp n hn
  · exact hq n hn

theorem Codeless.reverse (h : Codeless ps) : Codeless ps.reverse :=
  fun n hn => h n (List.mem_reverse.mp hn)

/-- Fewer pieces hold no more code blocks. -/
theorem Codeless.of_nodes (h : Codeless qs) (hsub : ∀ n, .node n ∈ ps → .node n ∈ qs) :
    Codeless ps :=
  fun n hn => h n (hsub n hn)

/-! ## Settling pieces -/

theorem node_of_unmatched {n : Node} (h : unmatched p = .node n) : p = .node n := by
  cases p with
  | run r => simp [unmatched] at h
  | _ => exact h

theorem mem_of_mem_joined {n : Node} (h : .node n ∈ joined ps) : .node n ∈ ps := by
  induction ps with
  | nil => exact h
  | cons p rest ih =>
    unfold joined at h
    split at h
    · rename_i hjoined
      have hmem : .node n ∈ joined rest := by
        rw [hjoined]
        simpa using h
      exact List.mem_cons_of_mem p (ih hmem)
    · rcases List.mem_cons.mp h with heq | hmem
      · rw [node_of_unmatched heq.symm]
        exact List.mem_cons_self
      · exact List.mem_cons_of_mem p (ih hmem)

theorem mem_of_mem_trimmed {n : Node} (atStart atEnd : Bool)
    (h : .node n ∈ trimmed atStart atEnd ps) :
    .node n ∈ ps := by
  fun_induction trimmed atStart atEnd ps <;> grind

theorem codeless_linked (h : Codeless ps) : Codeless (linked ps) := by
  induction ps with
  | nil => exact codeless_nil
  | cons p rest ih =>
    have hrest := ih h.tail
    cases p with
    | data gs =>
      refine .append ?_ hrest
      intro n hn
      obtain ⟨⟨address, part⟩, -, hpart⟩ := List.mem_map.mp hn
      cases address with
      | false => cases hpart
      | true =>
        cases hpart
        rfl
    | node n => exact hrest.cons_node (h n List.mem_cons_self)
    | _ => exact hrest.cons (by simp)

theorem codes_gathered (text : Option (Text.Span × List Char)) :
    codesOfNodes (gathered text) = [] := by
  cases text <;> rfl

theorem codes_toNodes (text : Option (Text.Span × List Char)) (h : Codeless ps) :
    codesOfNodes (toNodes text ps) = [] := by
  fun_induction toNodes text ps with
  | case1 text => exact codes_gathered text
  | case6 text span rest ih =>
    rw [codesOfNodes_append, codes_gathered, codesOfNodes, ih h.tail]
    rfl
  | case7 text n rest ih =>
    rw [codesOfNodes_append, codes_gathered, codesOfNodes, h n List.mem_cons_self, ih h.tail]
    rfl
  | _ => rename_i ih; exact ih h.tail

theorem codes_settled (inLink atStart atEnd : Bool) (h : Codeless ps) :
    codesOfNodes (settled inLink atStart atEnd ps) = [] := by
  have htrimmed : Codeless (trimmed atStart atEnd (joined ps)) :=
    h.of_nodes fun _ hn => mem_of_mem_joined (mem_of_mem_trimmed atStart atEnd hn)
  unfold settled
  split
  · exact codes_toNodes none htrimmed
  · exact codes_toNodes none (codeless_linked htrimmed)

/-! ## Matching emphasis -/

/-- Finding an opening run cuts the pieces before it in two. -/
theorem eq_append_of_findOpening {closing o : Run} {inner rest : List Piece}
    (hfind : findOpening closing ps = some (inner, o, rest)) : ps = inner ++ .run o :: rest := by
  fun_induction findOpening closing ps generalizing inner rest with
  | case1 => cases hfind
  | case2 r before hfits =>
    cases hfind
    rfl
  | case3 r before hfits ih =>
    obtain ⟨⟨inner', o', rest'⟩, hmore, heq⟩ := Option.map_eq_some_iff.mp hfind
    cases heq
    rw [ih hmore, List.cons_append]
  | case4 p before hrun ih =>
    obtain ⟨⟨inner', o', rest'⟩, hmore, heq⟩ := Option.map_eq_some_iff.mp hfind
    cases heq
    rw [ih hmore, List.cons_append]

theorem codeless_closeRun (inLink : Bool) (fuel : Nat) (r : Run) (h : Codeless ps) :
    Codeless (closeRun inLink fuel r ps) := by
  fun_induction closeRun inLink fuel r ps with
  | case1 => exact h
  | case2 => exact h
  | case3 => exact h.cons (by simp)
  | case4 fuel r before hne inner o rest hfind take left element span made rest' ih =>
    have hbefore : before = inner ++ .run o :: rest := by
      split at hfind
      · exact eq_append_of_findOpening hfind
      · cases hfind
    rw [hbefore] at h
    have hinner : Codeless inner := fun n hn => h n (List.mem_append_left _ hn)
    have hrest : Codeless rest :=
      fun n hn => h n (List.mem_append_right _ (List.mem_cons_of_mem _ hn))
    have hleft : Codeless rest' := by
      show Codeless (if left.isEmpty then rest else .run { o with glyphs := left } :: rest)
      split
      · exact hrest
      · exact hrest.cons (by simp)
    exact ih (hleft.cons_node (codes_settled inLink false false hinner.reverse))

theorem codeless_matched (inLink : Bool) (hp : Codeless ps) (hq : Codeless qs) :
    Codeless (matched inLink ps qs) := by
  fun_induction matched inLink ps qs with
  | case1 => exact hp.reverse
  | case2 before r rest ih => exact ih (codeless_closeRun inLink _ r hp) hq.tail
  | case3 before p rest hrun ih =>
    refine ih ?_ hq.tail
    intro n hn
    rcases List.mem_cons.mp hn with heq | hn
    · exact hq n (heq ▸ List.mem_cons_self)
    · exact hp n hn

/-- The nodes of pieces without code blocks have none. -/
theorem codes_nodes (inLink atStart atEnd : Bool) (h : Codeless ps) :
    codesOfNodes (nodes inLink atStart atEnd ps) = [] :=
  codes_settled inLink atStart atEnd (codeless_matched inLink codeless_nil h)

end Piece

namespace Inline

open Piece

/-! ## Reading running text -/

/-- A construct that was read is no node that holds code blocks. -/
def CodelessResult (result : Option (Piece × List Glyph)) : Prop :=
  ∀ n rest, result = some (.node n, rest) → n.codes = []

theorem codelessResult_none : CodelessResult none := by
  intro n rest h
  cases h

theorem codelessResult_some {p : Piece} (rest : List Glyph) (h : ∀ n, p = .node n → n.codes = []) :
    CodelessResult (some (p, rest)) := by
  intro n rest' heq
  exact h n (congrArg Prod.fst (Option.some.inj heq))

theorem codelessResult_map {α : Type} {f : α → Piece × List Glyph} (o : Option α)
    (h : ∀ a n, (f a).1 = .node n → n.codes = []) : CodelessResult (o.map f) := by
  intro n rest heq
  obtain ⟨a, -, ha⟩ := Option.map_eq_some_iff.mp heq
  exact h a n (congrArg Prod.fst ha)

theorem codelessResult_backslash (gs : List Glyph) : CodelessResult (backslash? gs) := by
  unfold backslash?
  split
  · split
    · exact codelessResult_some _ (by simp)
    · exact codelessResult_map _ (by simp)
  · exact codelessResult_none

theorem codelessResult_code (cell : Bool) (gs : List Glyph) : CodelessResult (code? cell gs) := by
  unfold code?
  dsimp only
  split
  · exact codelessResult_none
  · refine codelessResult_map _ ?_
    rintro ⟨text, rest⟩ n hn
    cases hn
    rfl

theorem codelessResult_angle (gs : List Glyph) : CodelessResult (angle? gs) := by
  unfold angle?
  split
  · refine codelessResult_some _ ?_
    rintro n hn
    cases hn
    rfl
  · refine codelessResult_map _ ?_
    rintro rest n hn
    cases hn
    rfl

theorem codelessResult_construct (cell escaped : Bool) (before : Option Char) (gs : List Glyph) :
    CodelessResult (construct? cell before escaped gs) := by
  unfold construct?
  split
  · exact codelessResult_none
  · split
    · exact codelessResult_some _ (by simp)
    · split
      · exact codelessResult_backslash _
      · split
        · exact codelessResult_map _ (by simp)
        · split
          · split
            · exact codelessResult_none
            · exact codelessResult_code cell _
          · split
            · exact codelessResult_angle _
            · split
              · exact codelessResult_some _ (by simp)
              · refine codelessResult_map _ ?_
                rintro address n hn
                cases hn
                rfl

/-- No piece that was read, and none before an open bracket, holds code blocks. -/
structure Reading.Codeless (r : Reading) : Prop where
  pieces : Piece.Codeless r.pieces
  before : ∀ b ∈ r.brackets, Piece.Codeless b.before

theorem Reading.Codeless.push {r : Reading} (h : r.Codeless) {p : Piece}
    (hp : ∀ n, p = .node n → n.codes = []) :
    Reading.Codeless { r with pieces := p :: r.pieces } := by
  refine ⟨?_, h.before⟩
  intro n hn
  rcases List.mem_cons.mp hn with heq | hn
  · exact hp n heq.symm
  · exact h.pieces n hn

theorem codeless_loosen {r : Reading} (h : r.Codeless) : r.loosen.Codeless := by
  unfold Reading.loosen
  split
  · exact h
  · rename_i b brackets hbrackets
    refine ⟨h.pieces.append ((h.before b ?_).cons (by simp)), fun o ho => h.before o ?_⟩
    · rw [hbrackets]
      exact List.mem_cons_self
    · rw [hbrackets]
      exact List.mem_cons_of_mem b ho

theorem codeless_close (r : Reading) {b : Bracket} {outer : List Bracket}
    (hb : Piece.Codeless b.before) (houter : ∀ o ∈ outer, Piece.Codeless o.before)
    (element : Element) {children : List Node} (hchildren : codesOfNodes children = [])
    (stop : Nat) : (close r b outer element children stop).Codeless := by
  refine ⟨hb.cons_node hchildren, ?_⟩
  intro o ho
  unfold close at ho
  dsimp only at ho
  split at ho
  · exact houter o ho
  · obtain ⟨o', ho', rfl⟩ := List.mem_map.mp ho
    split
    · exact houter o' ho'
    · exact houter o' ho'

theorem codeless_closing (labels : Labels) {r : Reading} (h : r.Codeless) (g : Glyph)
    (rest : List Glyph) : (closing labels r g rest).1.Codeless := by
  have hloose : Reading.Codeless { r.loosen with pieces := .data [g] :: r.loosen.pieces } :=
    (codeless_loosen h).push (by simp)
  unfold closing
  dsimp only
  split
  · exact hloose
  · rename_i b outer hbrackets
    have hb : Piece.Codeless b.before := h.before b (by simp [hbrackets])
    have houter : ∀ o ∈ outer, Piece.Codeless o.before :=
      fun o ho => h.before o (by simp [hbrackets, ho])
    split
    · exact hloose
    · split
      · exact codeless_close r hb houter _ rfl _
      · split
        · exact hloose
        · refine codeless_close r hb houter _ ?_ _
          split
          · rfl
          · refine Piece.codes_nodes _ _ _ (Codeless.append ?_ h.pieces.reverse)
            split
            · exact codeless_nil.cons (by simp)
            · exact codeless_nil

theorem before_of_open {gs : List Glyph} {pieces : List Piece} {b : Bracket}
    (h : open? gs pieces = some b) : b.before = pieces := by
  unfold open? at h
  grind

theorem codeless_read (labels : Labels) (cell : Bool) (fuel : Nat) (before : Option Char)
    (escaped : Bool) {r : Reading} (h : r.Codeless) (gs : List Glyph) :
    (read labels cell fuel before escaped r gs).Codeless := by
  fun_induction read labels cell fuel before escaped r gs with
  | case1 => exact h
  | case2 => exact h
  | case3 fuel before escaped r g rest b hopen ih =>
    refine ih ⟨codeless_nil, ?_⟩
    intro o ho
    rcases List.mem_cons.mp ho with rfl | ho
    · rw [before_of_open hopen]
      exact h.pieces
    · exact h.before o ho
  | case4 fuel before escaped r g rest hopen hclose r' after hclosing used ih =>
    have hr := codeless_closing labels h g rest
    rw [hclosing] at hr
    exact ih hr
  | case5 fuel before escaped r g rest hopen hclose piece after hconstruct used escaped' ih =>
    refine ih (h.push ?_)
    rintro n rfl
    exact codelessResult_construct _ _ _ _ n after hconstruct
  | case6 fuel before escaped r g rest hopen hclose hconstruct ih => exact ih (h.push (by simp))

theorem codeless_finish {r : Reading} (h : r.Codeless) : Piece.Codeless r.finish := by
  have hfold : ∀ (brackets : List Bracket) (pieces : List Piece), Piece.Codeless pieces →
      (∀ b ∈ brackets, Piece.Codeless b.before) →
      Piece.Codeless (brackets.foldl (fun ps b => ps ++ .data b.glyphs :: b.before) pieces) := by
    intro brackets
    induction brackets with
    | nil => intro pieces hpieces _; exact hpieces
    | cons b rest ih =>
      intro pieces hpieces hbefore
      refine ih _ (hpieces.append ((hbefore b List.mem_cons_self).cons (by simp))) ?_
      exact fun o ho => hbefore o (List.mem_cons_of_mem b ho)
  exact (hfold r.brackets r.pieces h.pieces h.before).reverse

theorem codes_nodesAfter (labels : Labels) (cell : Bool) (before : Option Char)
    (gs : List Glyph) : codesOfNodes (nodesAfter labels cell before gs) = [] := by
  refine Piece.codes_nodes _ _ _ (codeless_finish (codeless_read labels cell _ before false ?_ gs))
  exact ⟨codeless_nil, fun b hb => absurd hb List.not_mem_nil⟩

end Inline

end LiveDoc.Markdown
