import LiveDoc.Proofs.Tree.Traversal
import LiveDoc.Tree.Markdown

/-!
# Changing fences one by one

`Tree.mapFences` changes the fences of a tree, each on its own, and leaves the rest alone.

* In the tree of a node of a text every fence is as it was read: below it stands its body and
  nothing else (`asRead_ofNode`).
* A tree that stands at a path in a larger one (`Around`) is looked up and changed there, by the
  path with what leads further down behind it.
-/

namespace LiveDoc.Tree

open LiveDoc.Markdown (Node)

mutual

/-- Changes every fence on its own, and nothing outside of fences. -/
def mapFences (f : Tree → Tree) : Tree → Tree
  | mk (.fence fence) s cs => f (mk (.fence fence) s cs)
  | mk k s cs => mk k s (mapFencesList f cs)

/-- Changes the fences of several trees. -/
def mapFencesList (f : Tree → Tree) : List Tree → List Tree
  | [] => []
  | t :: ts => t.mapFences f :: mapFencesList f ts

end

/-- A fence in the place of another one, with nothing in it. -/
def emptied (t : Tree) : Tree := mk (.fence (.ofParsed none "" "")) t.span []

/-- What a tree holds outside of its fences, and where they are. -/
def outside (t : Tree) : Tree := t.mapFences emptied

/-- What several trees hold outside of their fences. -/
def outsideList (ts : List Tree) : List Tree := mapFencesList emptied ts

/-- If the node is a fence, it is as it was read: its info text is the one that was read, and below
it stands the body that was read and nothing else. -/
def IsAsRead (n : Tree) : Prop :=
  ∀ f, n.fence? = some f → f.info = f.parsedInfo ∧ n.children = [leaf f.parsedBody none]

/-- Every fence of a tree is as it was read. -/
def AsRead (t : Tree) : Prop := ∀ n ∈ t.preorder, n.IsAsRead

variable {f : Tree → Tree} {k : Kind} {s : Option Text.Span} {cs : List Tree}

theorem mapFences_of_ne (hk : ∀ fence, k ≠ .fence fence) :
    mapFences f (mk k s cs) = mk k s (mapFencesList f cs) := by
  cases k with
  | fence fence => exact absurd rfl (hk fence)
  | document => rfl
  | text content => rfl
  | other name => rfl

theorem outside_of_ne (hk : ∀ fence, k ≠ .fence fence) :
    (mk k s cs).outside = mk k s (outsideList cs) :=
  mapFences_of_ne hk

theorem outsideList_cons (t : Tree) (ts : List Tree) :
    outsideList (t :: ts) = t.outside :: outsideList ts := by
  rw [outsideList, mapFencesList]
  rfl

mutual

/-- Where no fence is changed, the tree stays. -/
theorem mapFences_eq_self : ∀ t : Tree, (∀ n ∈ t.preorder, n.fence?.isSome → f n = n) →
    t.mapFences f = t
  | mk k s cs, h => by
    rw [preorder] at h
    obtain ⟨hroot, hbelow⟩ := List.forall_mem_cons.mp h
    by_cases hk : ∃ fence, k = .fence fence
    · obtain ⟨fence, rfl⟩ := hk
      exact hroot rfl
    · rw [mapFences_of_ne (not_exists.mp hk), mapFencesList_eq_self cs hbelow]

theorem mapFencesList_eq_self : ∀ ts : List Tree,
    (∀ n ∈ preorderList ts, n.fence?.isSome → f n = n) → mapFencesList f ts = ts
  | [], _ => rfl
  | t :: ts, h => by
    rw [preorderList] at h
    obtain ⟨hfirst, hothers⟩ := List.forall_mem_append.mp h
    rw [mapFencesList, mapFences_eq_self t hfirst, mapFencesList_eq_self ts hothers]

end

/-! ## Trees that were read -/

/-- What stands below a fence that is as it was read. -/
theorem AsRead.children {fence : Fence} (h : (mk (.fence fence) s cs).AsRead) :
    cs = [leaf fence.parsedBody none] := by
  rw [AsRead, preorder] at h
  exact (h _ List.mem_cons_self fence rfl).2

theorem AsRead.below (h : (mk k s cs).AsRead) : ∀ n ∈ preorderList cs, n.IsAsRead := by
  rw [AsRead, preorder] at h
  exact (List.forall_mem_cons.mp h).2

theorem isAsRead_of_ne (hk : ∀ fence, k ≠ .fence fence) : (mk k s cs).IsAsRead := by
  intro fence h
  cases k with
  | fence fence => exact absurd rfl (hk fence)
  | document => cases h
  | text content => cases h
  | other name => cases h

/-- A node that is no fence, above nodes that are as they were read. -/
theorem asRead_of_ne (hk : ∀ fence, k ≠ .fence fence) (h : ∀ n ∈ preorderList cs, n.IsAsRead) :
    (mk k s cs).AsRead := by
  rw [AsRead, preorder]
  exact List.forall_mem_cons.mpr ⟨isAsRead_of_ne hk, h⟩

theorem asRead_leaf (content : String) : (leaf content s).AsRead :=
  asRead_of_ne (by simp) (by simp [preorderList])

theorem forall_preorderList_leaf (content : String) :
    ∀ n ∈ preorderList [leaf content none], n.IsAsRead := by
  rw [preorderList, preorderList, List.append_nil]
  exact asRead_leaf content

mutual

/-- In the tree of a node all fences are as they were read. -/
theorem asRead_ofNode (source : List Char) : ∀ n : Node, (ofNode source n).AsRead
  | .code span language details value => by
    rw [ofNode]
    split
    · rw [AsRead, preorder]
      refine List.forall_mem_cons.mpr ⟨?_, forall_preorderList_leaf value⟩
      intro fence h
      cases h
      exact ⟨rfl, rfl⟩
    · exact asRead_of_ne (by simp) (forall_preorderList_leaf value)
  | .inlineCode span value => by
    rw [ofNode]
    exact asRead_of_ne (by simp) (forall_preorderList_leaf value)
  | .text span value => by
    rw [ofNode]
    exact asRead_leaf value
  | .element e span children => by
    have hbelow := forall_preorderList_ofNodes source children
    cases e <;> exact asRead_of_ne (by simp) hbelow

theorem forall_preorderList_ofNodes (source : List Char) :
    ∀ ns : List Node, ∀ n ∈ preorderList (ofNodes source ns), n.IsAsRead
  | [] => by simp [ofNodes, preorderList]
  | n :: ns => by
    rw [ofNodes, preorderList]
    exact List.forall_mem_append.mpr ⟨asRead_ofNode source n, forall_preorderList_ofNodes source ns⟩

end

/-! ## Trees in a larger tree -/

/-- What stands around the node at a path. What is put there is found there, and a change at a
longer path is a change of it. -/
structure Around (path : List Nat) (plug : Tree → Tree) : Prop where
  get? : ∀ t below, (plug t).get? (path ++ below) = t.get? below
  update : ∀ f t below, (plug t).update f (path ++ below) = plug (t.update f below)

theorem Around.get?_self {path : List Nat} {plug : Tree → Tree} (h : Around path plug) (t : Tree) :
    (plug t).get? path = some t := by
  have hget := h.get? t []
  rwa [List.append_nil, get?_nil] at hget

theorem Around.update_self {path : List Nat} {plug : Tree → Tree} (h : Around path plug)
    (f : Tree → Tree) (t : Tree) : (plug t).update f path = plug (f t) := by
  have hupdate := h.update f t []
  rwa [List.append_nil] at hupdate

/-- Nothing stands around the root. -/
theorem Around.root : Around [] id := ⟨fun _ _ => rfl, fun _ _ _ => rfl⟩

/-- Around a child stand its parent, its siblings, and what is around the parent. -/
theorem Around.child {path : List Nat} {plug : Tree → Tree} (h : Around path plug) (k : Kind)
    (s : Option Text.Span) (before after : List Tree) :
    Around (path ++ [before.length]) fun t => plug (.mk k s (before ++ t :: after)) := by
  refine ⟨fun t below => ?_, fun f t below => ?_⟩
  · rw [List.append_assoc, h.get?]
    simp [Tree.children]
  · have hmodify := modify_append_right (Tree.update f below) before (t :: after) 0
    rw [Nat.add_zero, List.modify_zero_cons] at hmodify
    rw [List.append_assoc, h.update, List.singleton_append, Tree.update, hmodify]

end LiveDoc.Tree
