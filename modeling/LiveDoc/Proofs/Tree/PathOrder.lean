import LiveDoc.Proofs.Tree.Traversal

/-!
# Paths in document order

The paths of a tree are a complete and ordered list of its nodes: a path is among them exactly when
there is a node at it, they ascend in the order of their first difference, and so a node stands in
front of what is below it.

* `mem_paths_iff`, `pairwise_paths` — which paths there are, and their order;
* `label_update_of_ne` — a new kind for one node is seen at its own path only;
* `traversals_agree` — the nodes, the paths and the look-up show one tree.
-/

namespace LiveDoc.Tree

/-! ## Order -/

/-- A path below the children numbered from `i` on lies below one of them. -/
theorem exists_le_of_mem_addressesFrom {i : Nat} {ts : List Tree} {path : List Nat}
    (h : path ∈ addressesFrom i ts) : ∃ n rest, path = n :: rest ∧ i ≤ n := by
  obtain ⟨m, rest, rfl⟩ := exists_of_mem_addressesFrom h
  exact ⟨i + m, rest, rfl, Nat.le_add_right i m⟩

mutual

/-- The paths ascend: that of a node is a prefix of those below it, and the numbers of children
ascend. -/
theorem pairwise_addresses : ∀ t : Tree, t.addresses.Pairwise (· < ·)
  | mk k s cs => by
    rw [addresses, List.pairwise_cons]
    refine ⟨?_, pairwise_addressesFrom 0 cs⟩
    intro path hpath
    obtain ⟨n, rest, rfl, -⟩ := exists_le_of_mem_addressesFrom hpath
    exact List.nil_lt_cons n rest

theorem pairwise_addressesFrom : ∀ (i : Nat) (ts : List Tree),
    (addressesFrom i ts).Pairwise (· < ·)
  | i, [] => by
    rw [addressesFrom]
    exact .nil
  | i, t :: ts => by
    rw [addressesFrom, List.pairwise_append, List.pairwise_map]
    refine ⟨?_, pairwise_addressesFrom (i + 1) ts, ?_⟩
    · refine (pairwise_addresses t).imp ?_
      intro path path' hlt
      exact List.cons_lt_cons_iff.mpr (.inr ⟨rfl, hlt⟩)
    · intro path hpath path' hpath'
      obtain ⟨rest, -, rfl⟩ := List.mem_map.mp hpath
      obtain ⟨n, rest', rfl, hn⟩ := exists_le_of_mem_addressesFrom hpath'
      exact List.cons_lt_cons_iff.mpr (.inl hn)

end

theorem pairwise_paths (t : Tree) : t.paths.Pairwise (· < ·) := by
  rw [paths_eq_addresses]
  exact pairwise_addresses t

/-- In an ascending list, what is smaller stands in front. -/
theorem pair_sublist {paths : List (List Nat)} (h : paths.Pairwise (· < ·)) {p q : List Nat}
    (hp : p ∈ paths) (hq : q ∈ paths) (hlt : p < q) : [p, q].Sublist paths := by
  obtain ⟨front, back, rfl⟩ := List.append_of_mem hp
  obtain ⟨-, hback, hfront⟩ := List.pairwise_append.mp h
  have hbehind : q ∈ back := by
    rcases List.mem_append.mp hq with hmem | hmem
    · exact absurd hlt (List.lt_asymm (hfront q hmem p List.mem_cons_self))
    · rcases List.mem_cons.mp hmem with rfl | hmem
      · exact absurd hlt (List.lt_irrefl q)
      · exact hmem
  exact (List.Sublist.cons_cons p (List.singleton_sublist.mpr hbehind)).trans
    (List.sublist_append_right front _)

/-! ## Completeness -/

theorem mem_addressesFrom_iff {i n : Nat} {rest : List Nat} {ts : List Tree} :
    (i + n) :: rest ∈ addressesFrom i ts ↔ ∃ t, ts[n]? = some t ∧ rest ∈ t.addresses := by
  induction ts generalizing i n with
  | nil => simp [addressesFrom]
  | cons t ts ih =>
    rw [addressesFrom, List.mem_append, List.mem_map]
    cases n with
    | zero =>
      -- the other trees have numbers of their own
      have hothers : (i + 0) :: rest ∉ addressesFrom (i + 1) ts := by
        intro hmem
        obtain ⟨n, rest', heq, hn⟩ := exists_le_of_mem_addressesFrom hmem
        have hhead := (List.cons.inj heq).1
        omega
      rw [or_iff_left hothers, Nat.add_zero, List.getElem?_cons_zero]
      simp
    | succ n =>
      have hfirst : ¬ ∃ path ∈ t.addresses, i :: path = (i + (n + 1)) :: rest := by
        rintro ⟨path, -, heq⟩
        have hhead := (List.cons.inj heq).1
        omega
      have hplace : i + (n + 1) = i + 1 + n := by omega
      rw [or_iff_right hfirst, hplace, ih, List.getElem?_cons_succ]

theorem mem_addresses_iff {path : List Nat} {t : Tree} :
    path ∈ t.addresses ↔ (t.get? path).isSome := by
  induction path generalizing t with
  | nil =>
    cases t
    simp [addresses]
  | cons n rest ih =>
    cases t with
    | mk k s cs =>
      have hbelow : n :: rest ∈ addressesFrom 0 cs ↔ ∃ c, cs[n]? = some c ∧ rest ∈ c.addresses := by
        rw [← mem_addressesFrom_iff, Nat.zero_add]
      have hroot : n :: rest ≠ [] := List.cons_ne_nil n rest
      rw [addresses, List.mem_cons, or_iff_right hroot, hbelow, get?_cons, children]
      cases cs[n]? with
      | none => simp
      | some c => simp [ih]

/-- **There is a node at exactly these paths.** -/
theorem mem_paths_iff {path : List Nat} {t : Tree} : path ∈ t.paths ↔ (t.get? path).isSome := by
  rw [paths_eq_addresses, mem_addresses_iff]

/-- Above a node are nodes. -/
theorem mem_paths_of_append {path below : List Nat} {t : Tree} (h : path ++ below ∈ t.paths) :
    path ∈ t.paths := by
  rw [mem_paths_iff] at h ⊢
  induction path generalizing t with
  | nil => rfl
  | cons n path ih =>
    rw [List.cons_append, get?_cons] at h
    rw [get?_cons]
    cases hchild : t.children[n]? with
    | none =>
      rw [hchild] at h
      cases h
    | some c =>
      rw [hchild] at h
      exact ih h

/-! ## A new kind for one node -/

/-- What a node is by itself: its kind, its span and the number of its children. -/
def label (t : Tree) : Kind × Option Text.Span × Nat := (t.kind, t.span, t.children.length)

/-- The node at the path has the new kind, and all else that it had. -/
theorem get?_update_self (f : Kind → Kind) (path : List Nat) (t : Tree) :
    (t.update (mapKind f) path).get? path = (t.get? path).map (mapKind f) := by
  induction path generalizing t with
  | nil => rfl
  | cons n path ih =>
    cases t with
    | mk k s cs =>
      rw [update, get?_cons, get?_cons, children, children, List.getElem?_modify_eq]
      cases cs[n]? with
      | none => rfl
      | some c => exact ih c

/-- **At every other path** the node is by itself what it was. -/
theorem label_update_of_ne (f : Kind → Kind) {path other : List Nat} (h : other ≠ path) (t : Tree) :
    ((t.update (mapKind f) path).get? other).map label = (t.get? other).map label := by
  induction path generalizing other t with
  | nil =>
    -- only the root changes, and the look-up below it starts from its children
    cases other with
    | nil => exact absurd rfl h
    | cons n rest =>
      cases t
      rfl
  | cons m path ih =>
    cases t with
    | mk k s cs =>
      rw [update]
      cases other with
      | nil => simp [label, kind, span, children]
      | cons n rest =>
        rw [get?_cons, get?_cons, children, children]
        by_cases hn : m = n
        · subst hn
          have hrest : rest ≠ path := fun heq => h (congrArg (m :: ·) heq)
          rw [List.getElem?_modify_eq]
          cases cs[m]? with
          | none => rfl
          | some c => exact ih hrest c
        · rw [List.getElem?_modify_ne _ _ hn]

/-! ## The three traversals -/

/-- **The nodes, the paths and the look-up show one tree.** The nodes are found in document order,
and the paths lead to them one by one. The paths ascend, so that no two are the same and each node
stands in front of what is below it, and there are no others at which a node is found. A new kind
for the node at a path leaves all paths as they are, and every other node by itself. -/
theorem traversals_agree (t : Tree) :
    t.nodes = t.preorder ∧ t.paths.map (fun path => t.get? path) = t.nodes.map some ∧
    t.paths.Nodup ∧ t.paths.Pairwise (· < ·) ∧
    (∀ path below, below ≠ [] → path ++ below ∈ t.paths → [path, path ++ below].Sublist t.paths) ∧
    (∀ path, (t.get? path).isSome ↔ path ∈ t.paths) ∧
    ∀ f path, (t.update (mapKind f) path).paths = t.paths ∧
      (t.update (mapKind f) path).get? path = (t.get? path).map (mapKind f) ∧
      ∀ other, other ≠ path →
        ((t.update (mapKind f) path).get? other).map label = (t.get? other).map label := by
  have hsorted := pairwise_paths t
  refine ⟨nodes_eq_preorder t, ?_, ?_, hsorted, ?_, fun path => mem_paths_iff.symm, ?_⟩
  · rw [paths_eq_addresses, nodes_eq_preorder]
    exact map_get?_addresses t
  · refine hsorted.imp ?_
    rintro path path' hlt rfl
    exact List.lt_irrefl path hlt
  · intro path below hbelow hmem
    have hlt : path < path ++ below := by
      obtain ⟨n, rest, rfl⟩ := List.exists_cons_of_ne_nil hbelow
      have hshorter : path ++ [] < path ++ n :: rest :=
        List.append_left_lt (List.nil_lt_cons n rest)
      rwa [List.append_nil] at hshorter
    exact pair_sublist hsorted (mem_paths_of_append hmem) hmem hlt
  · intro f path
    exact ⟨paths_update f path t, get?_update_self f path t,
      fun other hne => label_update_of_ne f hne t⟩

end LiveDoc.Tree
