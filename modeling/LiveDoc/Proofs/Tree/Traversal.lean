import LiveDoc.Tree

/-!
# The nodes of a tree and their addresses

`nodes` and `paths` find the nodes of a tree with a stack of trees still to be visited. Here both
are brought to a recursion on the tree:

* **nodes** — the stack finds `preorder` (`nodes_eq_preorder`);
* **paths** — the stack finds `addresses`, and the `k`-th of them leads to the `k`-th node
  (`paths_eq_addresses`, `get?_of_paths`);
* **updates** — a change of the kind of the `k`-th node changes the `k`-th of the `kinds` and
  nothing else: the `skeleton`, which is the tree without its kinds, and all paths stay
  (`kinds_update`, `skeleton_update`, `paths_update`).

A tree is its skeleton with its kinds (`eq_of_skeleton_eq`), so the three facts together say what an
update does to the tree as a whole.
-/

namespace LiveDoc.Tree

/-- What the nodes are, in document order. -/
def kinds (t : Tree) : List Kind := t.preorder.map kind

/-- What the nodes of several trees are. -/
def kindsList (ts : List Tree) : List Kind := (preorderList ts).map kind

@[simp] theorem kinds_mk (k : Kind) (s : Option Text.Span) (cs : List Tree) :
    (mk k s cs).kinds = k :: kindsList cs := by
  simp [kinds, kindsList, preorder, kind]

@[simp] theorem kindsList_nil : kindsList [] = [] := by
  simp [kindsList, preorderList]

@[simp] theorem kindsList_cons (t : Tree) (ts : List Tree) :
    kindsList (t :: ts) = t.kinds ++ kindsList ts := by
  simp [kindsList, kinds, preorderList]

mutual

/-- The paths of all nodes in document order, by recursion on the tree. -/
def addresses : Tree → List (List Nat)
  | mk _ _ cs => [] :: addressesFrom 0 cs

/-- The paths of the nodes of several trees, the first of which is child number `i`. -/
def addressesFrom : (i : Nat) → List Tree → List (List Nat)
  | _, [] => []
  | i, t :: ts => t.addresses.map (i :: ·) ++ addressesFrom (i + 1) ts

end

mutual

/-- The tree with its shape and its spans, but without its kinds. -/
def skeleton : Tree → Tree
  | mk _ s cs => mk .document s (skeletonList cs)

/-- The skeletons of several trees. -/
def skeletonList : List Tree → List Tree
  | [] => []
  | t :: ts => t.skeleton :: skeletonList ts

end

/-! ## Sizes -/

mutual

/-- There is one kind for every node. -/
theorem length_kinds : ∀ t : Tree, t.kinds.length = t.size
  | mk k s cs => by
    rw [kinds_mk, List.length_cons, length_kindsList cs, size]
    omega

theorem length_kindsList : ∀ ts : List Tree, (kindsList ts).length = sizeList ts
  | [] => by simp [sizeList]
  | t :: ts => by
    rw [kindsList_cons, List.length_append, length_kinds t, length_kindsList ts, sizeList]

end

mutual

/-- There is one address for every node. -/
theorem length_addresses : ∀ t : Tree, t.addresses.length = t.size
  | mk k s cs => by
    rw [addresses, List.length_cons, length_addressesFrom 0 cs, size]
    omega

theorem length_addressesFrom : ∀ (i : Nat) (ts : List Tree),
    (addressesFrom i ts).length = sizeList ts
  | i, [] => by simp [addressesFrom, sizeList]
  | i, t :: ts => by
    rw [addressesFrom, List.length_append, List.length_map, length_addresses t,
      length_addressesFrom (i + 1) ts, sizeList]

end

theorem sizeList_append (ss ts : List Tree) :
    sizeList (ss ++ ts) = sizeList ss + sizeList ts := by
  induction ss with
  | nil => simp [sizeList]
  | cons t ss ih => simp only [List.cons_append, sizeList, ih]; omega

theorem preorderList_append (ss ts : List Tree) :
    preorderList (ss ++ ts) = preorderList ss ++ preorderList ts := by
  induction ss with
  | nil => simp [preorderList]
  | cons t ss ih => simp only [List.cons_append, preorderList, ih, List.append_assoc]

/-! ## The stack finds what the recursion finds -/

/-- With enough fuel, the walk lists the trees on the stack one after the other. -/
theorem walk_eq : ∀ (fuel : Nat) (stack : List Tree), sizeList stack ≤ fuel →
    walk fuel stack = preorderList stack := by
  intro fuel
  induction fuel with
  | zero =>
    intro stack h
    cases stack with
    | nil => simp [walk, preorderList]
    | cons t ts =>
      cases t
      simp only [sizeList, size] at h
      omega
  | succ fuel ih =>
    intro stack h
    cases stack with
    | nil => simp [walk, preorderList]
    | cons t ts =>
      cases t with
      | mk k s cs =>
        simp only [sizeList, size] at h
        have hrest : sizeList (cs ++ ts) ≤ fuel := by
          rw [sizeList_append]
          omega
        rw [walk, children, ih (cs ++ ts) hrest, preorderList_append, preorderList, preorder,
          List.cons_append]

/-- The nodes in document order. -/
theorem nodes_eq_preorder (t : Tree) : t.nodes = t.preorder := by
  rw [nodes, walk_eq t.size [t] (by simp [sizeList])]
  simp [preorderList]

/-- The number of nodes still to be visited. -/
def stackSize (stack : List (List Nat × Tree)) : Nat := sizeList (stack.map (·.2))

theorem map_snd_pathedFrom (path : List Nat) (i : Nat) (ts : List Tree) :
    (pathedFrom path i ts).map (·.2) = ts := by
  induction ts generalizing i with
  | nil => rfl
  | cons t ts ih => simp [pathedFrom, ih]

/-- The paths below children are those of the children behind the path of the node. -/
theorem flatMap_pathedFrom (path : List Nat) (i : Nat) (ts : List Tree) :
    (pathedFrom path i ts).flatMap (fun e => e.2.addresses.map (e.1 ++ ·)) =
      (addressesFrom i ts).map (path ++ ·) := by
  induction ts generalizing i with
  | nil => simp [pathedFrom, addressesFrom]
  | cons t ts ih => simp [pathedFrom, addressesFrom, ih, Function.comp_def]

/-- With enough fuel, the walk lists the paths of the trees on the stack one after the other. -/
theorem walkPaths_eq : ∀ (fuel : Nat) (stack : List (List Nat × Tree)), stackSize stack ≤ fuel →
    walkPaths fuel stack = stack.flatMap fun e => e.2.addresses.map (e.1 ++ ·) := by
  intro fuel
  induction fuel with
  | zero =>
    intro stack h
    cases stack with
    | nil => rfl
    | cons e rest =>
      obtain ⟨path, k, s, cs⟩ := e
      simp only [stackSize, List.map_cons, sizeList, size] at h
      omega
  | succ fuel ih =>
    intro stack h
    cases stack with
    | nil => rfl
    | cons e rest =>
      obtain ⟨path, k, s, cs⟩ := e
      have hrest : stackSize (pathedFrom path 0 cs ++ rest) ≤ fuel := by
        simp only [stackSize, List.map_cons, List.map_append, sizeList, size,
          map_snd_pathedFrom, sizeList_append] at h ⊢
        omega
      rw [walkPaths, children, ih _ hrest, List.flatMap_append, flatMap_pathedFrom,
        List.flatMap_cons, addresses]
      simp

/-- The paths in document order. -/
theorem paths_eq_addresses (t : Tree) : t.paths = t.addresses := by
  rw [paths, walkPaths_eq t.size [([], t)] (by simp [stackSize, sizeList])]
  simp

/-! ## A path leads to its node -/

@[simp] theorem get?_nil (t : Tree) : get? [] t = some t := by
  rw [get?]

@[simp] theorem get?_cons (i : Nat) (path : List Nat) (t : Tree) :
    get? (i :: path) t = t.children[i]?.bind (get? path) := by
  rw [get?]

mutual

theorem map_get?_addresses : ∀ t : Tree,
    t.addresses.map (fun path => get? path t) = t.preorder.map some
  | mk k s cs => by
    have hbelow := map_get?_addressesFrom k s [] cs
    rw [List.nil_append, List.length_nil] at hbelow
    rw [addresses, preorder, List.map_cons, List.map_cons, hbelow, get?_nil]

/-- The children `ts` of a node stand behind the children `earlier`. -/
theorem map_get?_addressesFrom (k : Kind) (s : Option Text.Span) : ∀ (earlier ts : List Tree),
    (addressesFrom earlier.length ts).map (fun path => get? path (mk k s (earlier ++ ts))) =
      (preorderList ts).map some
  | earlier, [] => by simp [addressesFrom, preorderList]
  | earlier, t :: ts => by
    have hfirst : (t.addresses.map (earlier.length :: ·)).map
        (fun path => get? path (mk k s (earlier ++ t :: ts))) = t.preorder.map some := by
      rw [List.map_map, ← map_get?_addresses t]
      apply List.map_congr_left
      intro path _
      simp [children]
    have hothers := map_get?_addressesFrom k s (earlier ++ [t]) ts
    rw [List.length_append, List.length_singleton, List.append_assoc, List.singleton_append]
      at hothers
    rw [addressesFrom, preorderList, List.map_append, List.map_append, hfirst, hothers]

end

/-- The `n`-th path leads to the `n`-th node. -/
theorem get?_of_paths {t : Tree} {n : Nat} {path : List Nat} (h : t.paths[n]? = some path) :
    t.get? path = t.preorder[n]? := by
  rw [paths_eq_addresses] at h
  have hmap := congrArg (·[n]?) (map_get?_addresses t)
  simp only [List.getElem?_map, h, Option.map_some] at hmap
  cases hn : t.preorder[n]? with
  | none => rw [hn] at hmap; exact absurd hmap (by simp)
  | some node => rw [hn] at hmap; exact Option.some.inj hmap

/-- The kind at the `n`-th path is the `n`-th kind. -/
theorem kind_of_paths {t : Tree} {n : Nat} {path : List Nat} (h : t.paths[n]? = some path) :
    (t.get? path).map kind = t.kinds[n]? := by
  rw [get?_of_paths h, kinds, List.getElem?_map]

theorem length_paths (t : Tree) : t.paths.length = t.kinds.length := by
  rw [paths_eq_addresses, length_addresses, length_kinds]

/-! ## Changing the kind of one node -/

/-- The tree with another kind at its root. -/
def mapKind (f : Kind → Kind) : Tree → Tree
  | mk k s cs => mk (f k) s cs

theorem modify_append_left {α : Type} (f : α → α) {l : List α} {n : Nat} (h : n < l.length)
    (m : List α) : (l ++ m).modify n f = l.modify n f ++ m := by
  induction l generalizing n with
  | nil => exact absurd h (Nat.not_lt_zero n)
  | cons a l ih =>
    cases n with
    | zero => rfl
    | succ n =>
      rw [List.cons_append, List.modify_succ_cons, ih (Nat.lt_of_succ_lt_succ h),
        List.modify_succ_cons, List.cons_append]

theorem modify_append_right {α : Type} (f : α → α) (l m : List α) (n : Nat) :
    (l ++ m).modify (l.length + n) f = l ++ m.modify n f := by
  induction l with
  | nil => simp
  | cons a l ih =>
    rw [List.length_cons, Nat.add_right_comm, List.cons_append, List.modify_succ_cons, ih,
      List.cons_append]

/-- The path of a node below the children numbered from `i` on starts with the number of one. -/
theorem exists_of_mem_addressesFrom {i : Nat} {ts : List Tree} {path : List Nat}
    (h : path ∈ addressesFrom i ts) : ∃ m rest, path = (i + m) :: rest := by
  induction ts generalizing i with
  | nil => simp [addressesFrom] at h
  | cons t ts ih =>
    rw [addressesFrom, List.mem_append, List.mem_map] at h
    rcases h with ⟨rest, _, rfl⟩ | h
    · exact ⟨0, rest, rfl⟩
    · obtain ⟨m, rest, rfl⟩ := ih h
      exact ⟨m + 1, rest, by rw [Nat.add_assoc, Nat.add_comm 1 m]⟩

mutual

theorem kinds_update_address (f : Kind → Kind) : ∀ (t : Tree) (n : Nat) (path : List Nat),
    t.addresses[n]? = some path → (update (mapKind f) path t).kinds = t.kinds.modify n f
  | mk k s cs, 0, path, h => by
    rw [addresses, List.getElem?_cons_zero, Option.some.injEq] at h
    subst h
    simp [update, mapKind]
  | mk k s cs, n + 1, path, h => by
    rw [addresses, List.getElem?_cons_succ] at h
    obtain ⟨m, rest, rfl⟩ := exists_of_mem_addressesFrom (List.mem_of_getElem? h)
    have hbelow := kindsList_modify_address f 0 cs n m rest h
    rw [Nat.zero_add, update, kinds_mk, kinds_mk, hbelow, List.modify_succ_cons]

theorem kindsList_modify_address (f : Kind → Kind) : ∀ (i : Nat) (ts : List Tree) (n m : Nat)
    (rest : List Nat), (addressesFrom i ts)[n]? = some ((i + m) :: rest) →
    kindsList (ts.modify m (update (mapKind f) rest)) = (kindsList ts).modify n f
  | i, [], n, m, rest, h => by simp [addressesFrom] at h
  | i, t :: ts, n, m, rest, h => by
    rw [addressesFrom] at h
    -- the node is in the first tree when its place is one of that tree's
    by_cases hn : n < t.size
    · rw [List.getElem?_append_left (by rwa [List.length_map, length_addresses]),
        List.getElem?_map, Option.map_eq_some_iff] at h
      obtain ⟨address, ha, heq⟩ := h
      injection heq with hm hrest
      have hm0 : m = 0 := by omega
      subst hm0 hrest
      rw [List.modify_zero_cons, kindsList_cons, kindsList_cons, kinds_update_address f t n _ ha,
        modify_append_left f (by rwa [length_kinds])]
    · rw [List.getElem?_append_right (by rw [List.length_map, length_addresses]; omega),
        List.length_map, length_addresses] at h
      obtain ⟨j, rest', hj⟩ := exists_of_mem_addressesFrom (List.mem_of_getElem? h)
      injection hj with hij hrest
      obtain ⟨m', rfl⟩ : ∃ m', m = m' + 1 := ⟨j, by omega⟩
      rw [show i + (m' + 1) = i + 1 + m' by omega] at h
      have hothers := kindsList_modify_address f (i + 1) ts (n - t.size) m' rest h
      have hplace : n = t.kinds.length + (n - t.size) := by
        rw [length_kinds]
        omega
      rw [List.modify_succ_cons, kindsList_cons, kindsList_cons, hothers, hplace,
        modify_append_right, ← hplace]

end

/-- A new kind for the node at the `n`-th path changes the `n`-th kind. -/
theorem kinds_update (f : Kind → Kind) {t : Tree} {n : Nat} {path : List Nat}
    (h : t.paths[n]? = some path) : (update (mapKind f) path t).kinds = t.kinds.modify n f := by
  rw [paths_eq_addresses] at h
  exact kinds_update_address f t n path h

theorem skeletonList_modify (f : Tree → Tree) (hf : ∀ t, (f t).skeleton = t.skeleton)
    (ts : List Tree) (i : Nat) : skeletonList (ts.modify i f) = skeletonList ts := by
  induction ts generalizing i with
  | nil => simp
  | cons t ts ih =>
    cases i with
    | zero => simp [skeletonList, hf]
    | succ i => simp [skeletonList, ih]

/-- A new kind for one node leaves the shape and the spans alone. -/
theorem skeleton_update (f : Kind → Kind) (path : List Nat) (t : Tree) :
    (update (mapKind f) path t).skeleton = t.skeleton := by
  induction path generalizing t with
  | nil =>
    cases t
    simp [update, mapKind, skeleton]
  | cons i path ih =>
    cases t with
    | mk k s cs => rw [update, skeleton, skeleton, skeletonList_modify _ ih]

mutual

theorem addresses_skeleton : ∀ t : Tree, t.skeleton.addresses = t.addresses
  | mk k s cs => by rw [skeleton, addresses, addresses, addressesFrom_skeletonList 0 cs]

theorem addressesFrom_skeletonList : ∀ (i : Nat) (ts : List Tree),
    addressesFrom i (skeletonList ts) = addressesFrom i ts
  | i, [] => by rw [skeletonList]
  | i, t :: ts => by
    rw [skeletonList, addressesFrom, addressesFrom, addresses_skeleton t,
      addressesFrom_skeletonList (i + 1) ts]

end

/-- The paths of a tree are those of its skeleton. -/
theorem paths_eq_of_skeleton_eq {s t : Tree} (h : s.skeleton = t.skeleton) : s.paths = t.paths := by
  rw [paths_eq_addresses, paths_eq_addresses, ← addresses_skeleton s, h, addresses_skeleton]

/-- A new kind for one node leaves the paths alone. -/
theorem paths_update (f : Kind → Kind) (path : List Nat) (t : Tree) :
    (update (mapKind f) path t).paths = t.paths :=
  paths_eq_of_skeleton_eq (skeleton_update f path t)

/-! ## A tree is its skeleton with its kinds -/

mutual

/-- Trees with the same skeleton and the same kinds are equal. -/
theorem eq_of_skeleton_eq : ∀ {s t : Tree}, s.skeleton = t.skeleton → s.kinds = t.kinds → s = t
  | mk k a cs, mk k' a' cs', hs, hk => by
    rw [skeleton, skeleton] at hs
    injection hs with _ ha hcs
    rw [kinds_mk, kinds_mk] at hk
    injection hk with hkind hkinds
    rw [hkind, ha, eq_of_skeletonList_eq hcs hkinds]

theorem eq_of_skeletonList_eq : ∀ {ss ts : List Tree}, skeletonList ss = skeletonList ts →
    kindsList ss = kindsList ts → ss = ts
  | [], [], _, _ => rfl
  | [], t :: ts, hs, _ => by simp [skeletonList] at hs
  | s :: ss, [], hs, _ => by simp [skeletonList] at hs
  | s :: ss, t :: ts, hs, hk => by
    rw [skeletonList, skeletonList] at hs
    injection hs with hfirst hothers
    rw [kindsList_cons, kindsList_cons] at hk
    have hlen : s.kinds.length = t.kinds.length := by
      rw [← length_paths, ← length_paths, paths_eq_of_skeleton_eq hfirst]
    obtain ⟨hk₁, hk₂⟩ := List.append_inj hk hlen
    rw [eq_of_skeleton_eq hfirst hk₁, eq_of_skeletonList_eq hothers hk₂]

end

end LiveDoc.Tree
