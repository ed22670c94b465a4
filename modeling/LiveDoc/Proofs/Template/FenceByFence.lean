import LiveDoc.Proofs.Tree.FenceMap
import LiveDoc.Template

/-!
# Filling a document fence by fence

The walk over a tree goes along paths and lets a fence wait for a text that may stand anywhere
behind it. In the tree of a Markdown text nothing ever waits for long: the text is the next node. So
the walk can be said without paths and without waiting, as a recursion on the tree that fills every
fence where it stands.

* **evaluations** — `fillM` is the walk with any way to evaluate; with one that keeps a log
  (`logged`) it is `fill` (`fst_run_fillM`), and the log tells what was evaluated, how often, and in
  which order;
* **step** — a fence takes its own body and leaves nothing waiting (`visitM_fence`);
* **run** — the walk over a tree, wherever it stands in a larger one, is the recursion
  (`visitM_tree`);
* **result** — the recursion evaluates the templates one after another, up to the first that fails,
  and when none fails it has changed every fence on its own (`runsInOrder_fillTreeM`); nothing
  outside of fences changes in any case (`outside_fillTreeM`).

So a tree that was read is filled in order (`fill_inOrder`), and stays as it was outside of its
fences (`outside_fill`).
-/

namespace LiveDoc.Template

open LiveDoc.Tree (Kind Around leaf preorderList mapFencesList)

/-! ## Definitions -/

/-- The expression of a fence that is a template: one that is taken for a template and has a body
that is not blank. -/
def expression? (options : Options) (t : Tree) : Option String :=
  t.fence?.bind fun f =>
    let body := t.body?.getD ""
    if options.accepts f && !Text.isBlankText body.toList then some body else none

/-- The templates of a tree in document order. -/
def expressions (options : Options) (t : Tree) : List String :=
  t.fences.filterMap (expression? options)

/-- A fence with a rendering for its body. Code brings its language. -/
def rendered (r : Rendering) : Tree → Tree
  | .mk (.fence f) s _ =>
    let fence := match r.display.language? with
      | some language => { f with language := some language, info := language }
      | none => f
    .mk (.fence fence) s [leaf r.content none]
  | t => t

/-- A fence on its own after its template was evaluated. -/
def filledFence (options : Options) (env : Environment) (t : Tree) : Tree :=
  match expression? options t with
  | none => t
  | some expression =>
    match evaluate expression env with
    | .error _ => t
    | .ok r => rendered r t

section

variable {m : Type → Type} [Monad m] (options : Options)
  (eval : String → m (Except Error Rendering))

/-- The walk of `visit` with another way to evaluate. -/
def visitM : (paths : List (List Nat)) → (waiting : Option (List Nat)) → Tree →
    m (Tree × Option Error)
  | [], _, root => pure (root, none)
  | path :: rest, waiting, root =>
    match (root.get? path).map Tree.kind with
    | some (.fence f) => visitM rest (if options.accepts f then some path else none) root
    | some (.text content) =>
      match waiting with
      | none => visitM rest none root
      | some fence =>
        if Text.isBlankText content.toList then visitM rest none root
        else do
          match ← eval content with
          | .error e => pure (root, some e)
          | .ok r => visitM rest none (apply root path fence r)
    | _ => visitM rest waiting root

/-- The walk of `fill` with another way to evaluate. -/
def fillM (root : Tree) : m (Tree × Option Error) :=
  if root.children.isEmpty then pure (root, none) else visitM options eval root.paths none root

/-- Goes on with what was filled, unless it ended with an error. -/
def proceed {α β : Type} (next : α → m (β × Option Error)) (stopped : α → β) :
    α × Option Error → m (β × Option Error)
  | (a, none) => next a
  | (a, some e) => pure (stopped a, some e)

/-- Fills one fence. -/
def fillFenceM (t : Tree) : m (Tree × Option Error) :=
  match expression? options t with
  | none => pure (t, none)
  | some expression => do
    match ← eval expression with
    | .error e => pure (t, some e)
    | .ok r => pure (rendered r t, none)

mutual

/-- Fills every fence of a tree where it stands, up to one that fails. -/
def fillTreeM : Tree → m (Tree × Option Error)
  | .mk (.fence f) s cs => fillFenceM options eval (.mk (.fence f) s cs)
  | .mk k s cs => fillTreesM cs >>= proceed (fun cs' => pure (.mk k s cs', none)) (.mk k s)

/-- Fills the fences of several trees. -/
def fillTreesM : List Tree → m (List Tree × Option Error)
  | [] => pure ([], none)
  | t :: ts => fillTreeM t >>= proceed
      (fun t' => fillTreesM ts >>= proceed (fun ts' => pure (t' :: ts', none)) (t' :: ·)) (· :: ts)

end

end

/-- Evaluates, and keeps a log of the expressions. -/
def logged (env : Environment) (expression : String) :
    StateM (List String) (Except Error Rendering) := do
  modify (· ++ [expression])
  pure (evaluate expression env)

/-! ## The walk with a log is the walk -/

variable {options : Options} {env : Environment}

@[simp] theorem run_logged_bind {α : Type} (expression : String)
    (next : Except Error Rendering → StateM (List String) α) (calls : List String) :
    (logged env expression >>= next).run calls =
      (next (evaluate expression env)).run (calls ++ [expression]) := rfl

theorem fst_run_visitM (paths : List (List Nat)) : ∀ (waiting : Option (List Nat)) (t : Tree)
    (calls : List String), ((visitM options (logged env) paths waiting t).run calls).1 =
      visit options env paths waiting t := by
  induction paths with
  | nil => intro waiting t calls; rfl
  | cons path rest ih =>
    intro waiting t calls
    rw [visitM, visit]
    cases (t.get? path).map Tree.kind with
    | none => exact ih waiting t calls
    | some k =>
      cases k with
      | document => exact ih waiting t calls
      | other name => exact ih waiting t calls
      | fence f => exact ih _ t calls
      | text content =>
        cases waiting with
        | none => exact ih none t calls
        | some fence =>
          dsimp only
          split
          · exact ih none t calls
          · -- the one place that evaluates: both walks go on with the same outcome
            rw [run_logged_bind]
            cases evaluate content env with
            | error e => rfl
            | ok r => exact ih none _ _

/-- With a log or without, a tree is filled in the same way. -/
theorem fst_run_fillM (ns : Namespace) (options : Options) (t : Tree) (calls : List String) :
    ((fillM options (logged (environment ns options t)) t).run calls).1 = fill ns options t := by
  unfold fillM fill
  split
  · rfl
  · exact fst_run_visitM _ _ _ _

/-! ## The walk is the recursion -/

section

variable {m : Type → Type} [Monad m] {eval : String → m (Except Error Rendering)}
  {path : List Nat} {plug : Tree → Tree}

theorem fillTreeM_of_ne {k : Kind} (hk : ∀ f, k ≠ .fence f) (s : Option Text.Span)
    (cs : List Tree) : fillTreeM options eval (.mk k s cs) =
      fillTreesM options eval cs >>= proceed (fun cs' => pure (.mk k s cs', none)) (.mk k s) := by
  cases k with
  | fence f => exact absurd rfl (hk f)
  | document => rw [fillTreeM]; simp
  | text content => rw [fillTreeM]; simp
  | other name => rw [fillTreeM]; simp

/-- A walk in which nothing waits passes over a node that is no fence. -/
theorem visitM_cons_of_ne (h : Around path plug) {k : Kind} (hk : ∀ f, k ≠ .fence f)
    (s : Option Text.Span) (cs : List Tree) (rest : List (List Nat)) :
    visitM options eval (path :: rest) none (plug (.mk k s cs)) =
      visitM options eval rest none (plug (.mk k s cs)) := by
  rw [visitM, h.get?_self]
  cases k with
  | fence f => exact absurd rfl (hk f)
  | document => rfl
  | text content => rfl
  | other name => rfl

variable [LawfulMonad m]

theorem bind_proceed_bind {α β γ : Type} (x : m (α × Option Error))
    (next : α → m (β × Option Error)) (stopped : α → β) (next' : β → m (γ × Option Error))
    (stopped' : β → γ) :
    (x >>= proceed next stopped) >>= proceed next' stopped' =
      x >>= proceed (fun a => next a >>= proceed next' stopped')
        (fun a => stopped' (stopped a)) := by
  rw [bind_assoc]
  refine bind_congr ?_
  rintro ⟨a, _ | e⟩
  · rfl
  · rw [proceed, pure_bind, proceed, proceed]

theorem bind_proceed_pure {α : Type} (x : m (α × Option Error)) :
    x >>= proceed (fun a => pure (a, none)) id = x := by
  have hpure : proceed (fun a => pure (a, none)) id = (pure : α × Option Error → m _) := by
    funext out
    obtain ⟨a, _ | e⟩ := out <;> rfl
  rw [hpure, bind_pure]

/-- What the walk does to a fence and its body, it does where the fence stands. -/
theorem apply_around (h : Around path plug) (f : Fence) (s : Option Text.Span) (body : String)
    (r : Rendering) : apply (plug (.mk (.fence f) s [leaf body none])) (path ++ [0]) path r =
      plug (rendered r (.mk (.fence f) s [leaf body none])) := by
  have htext := h.update (setText r.content) (.mk (.fence f) s [leaf body none]) [0]
  rw [apply, htext]
  cases hl : r.display.language? with
  | none =>
    simp only [rendered, hl]
    rfl
  | some language =>
    simp only [rendered, hl, h.update_self]
    rfl

/-- A fence takes the body below it, and nothing waits behind it. -/
theorem visitM_fence (h : Around path plug) (f : Fence) (s : Option Text.Span) (body : String)
    (rest : List (List Nat)) :
    visitM options eval (path :: (path ++ [0]) :: rest) none
        (plug (.mk (.fence f) s [leaf body none])) =
      fillFenceM options eval (.mk (.fence f) s [leaf body none]) >>=
        proceed (fun t' => visitM options eval rest none (plug t')) plug := by
  have happly := apply_around h f s body
  have hexpression : expression? options (.mk (.fence f) s [leaf body none]) =
      if options.accepts f && !Text.isBlankText body.toList then some body else none := rfl
  generalize ht : Tree.mk (.fence f) s [leaf body none] = t at happly hexpression ⊢
  have hfence : ((plug t).get? path).map Tree.kind = some (.fence f) := by
    rw [h.get?_self, ← ht]
    rfl
  have hbody : ((plug t).get? (path ++ [0])).map Tree.kind = some (.text body) := by
    rw [h.get? t [0], ← ht]
    rfl
  -- two steps: the fence waits if it is accepted, and its body is taken or passed over
  rw [visitM, hfence, fillFenceM, hexpression]
  dsimp only
  rw [visitM, hbody]
  dsimp only
  cases options.accepts f with
  | false => simp [proceed]
  | true =>
    cases Text.isBlankText body.toList with
    | true => simp [proceed]
    | false =>
      simp only [Bool.not_false, Bool.and_true, Bool.false_eq_true, if_true, if_false, bind_assoc]
      refine bind_congr ?_
      rintro (e | r)
      · simp [proceed]
      · simp [proceed, happly]

mutual

/-- The walk over a tree, wherever it stands, is the recursion on it. -/
theorem visitM_tree : ∀ (t : Tree), t.AsRead → ∀ {path : List Nat} {plug : Tree → Tree},
    Around path plug → ∀ rest : List (List Nat),
      visitM options eval (t.addresses.map (path ++ ·) ++ rest) none (plug t) =
        fillTreeM options eval t >>=
          proceed (fun t' => visitM options eval rest none (plug t')) plug
  | .mk k s cs, hread, path, plug, h, rest => by
    by_cases hk : ∃ f, k = .fence f
    · obtain ⟨f, rfl⟩ := hk
      obtain rfl := hread.children
      rw [fillTreeM, ← visitM_fence h]
      simp [Tree.addresses, Tree.addressesFrom, leaf]
    · have hk' := not_exists.mp hk
      have hchildren := visitM_trees k s [] cs hread.below h rest
      rw [List.nil_append, List.length_nil] at hchildren
      rw [Tree.addresses, List.map_cons, List.append_nil, List.cons_append, visitM_cons_of_ne h hk',
        hchildren, fillTreeM_of_ne hk', bind_proceed_bind]
      simp [proceed]

/-- The children `before` were walked over, and the children `ts` come next. -/
theorem visitM_trees (k : Kind) (s : Option Text.Span) : ∀ (before ts : List Tree),
    (∀ n ∈ preorderList ts, n.IsAsRead) → ∀ {path : List Nat} {plug : Tree → Tree},
      Around path plug → ∀ rest : List (List Nat),
        visitM options eval ((Tree.addressesFrom before.length ts).map (path ++ ·) ++ rest) none
            (plug (.mk k s (before ++ ts))) =
          fillTreesM options eval ts >>= proceed
            (fun ts' => visitM options eval rest none (plug (.mk k s (before ++ ts'))))
            (fun ts' => plug (.mk k s (before ++ ts')))
  | before, [], _, path, plug, _, rest => by
    rw [fillTreesM, pure_bind]
    rfl
  | before, t :: ts, hread, path, plug, h, rest => by
    rw [preorderList] at hread
    obtain ⟨hfirst, hothers⟩ := List.forall_mem_append.mp hread
    -- around the first child stand the others, also those that were not walked over yet
    have hpaths : (Tree.addressesFrom before.length (t :: ts)).map (path ++ ·) =
        t.addresses.map (path ++ [before.length] ++ ·) ++
          (Tree.addressesFrom (before.length + 1) ts).map (path ++ ·) := by
      simp [Tree.addressesFrom, Function.comp_def]
    have hnext : ∀ t' : Tree, visitM options eval
        ((Tree.addressesFrom (before.length + 1) ts).map (path ++ ·) ++ rest) none
          (plug (.mk k s (before ++ t' :: ts))) =
        fillTreesM options eval ts >>= proceed
          (fun ts' => visitM options eval rest none (plug (.mk k s (before ++ t' :: ts'))))
          (fun ts' => plug (.mk k s (before ++ t' :: ts'))) := by
      intro t'
      have hothers' := visitM_trees k s (before ++ [t']) ts hothers h rest
      simpa using hothers'
    rw [hpaths, List.append_assoc, visitM_tree t hfirst (h.child k s before ts), fillTreesM,
      bind_proceed_bind]
    simp only [hnext, bind_proceed_bind]
    simp [proceed]

end

/-- A tree that was read is filled by the recursion. -/
theorem fillM_eq_fillTreeM {t : Tree} (hread : t.AsRead) :
    fillM options eval t = fillTreeM options eval t := by
  unfold fillM
  split
  · next hempty =>
    obtain ⟨k, s, cs⟩ := t
    obtain rfl : cs = [] := List.isEmpty_iff.mp hempty
    have hk : ∀ f, k ≠ .fence f := by
      rintro f rfl
      cases hread.children
    rw [fillTreeM_of_ne hk, fillTreesM, pure_bind, proceed]
  · calc visitM options eval t.paths none t
        = visitM options eval (t.addresses.map ([] ++ ·) ++ []) none (id t) := by
          simp [Tree.paths_eq_addresses]
      _ = fillTreeM options eval t >>= proceed (fun t' => visitM options eval [] none (id t')) id :=
          visitM_tree t hread .root []
      _ = fillTreeM options eval t := bind_proceed_pure _

end

/-! ## What the recursion evaluates and what it gives -/

/-- What came out of fences that were filled one after another, and what was evaluated. When every
template gives a rendering, each was evaluated once, in order, and `filled` came out. Otherwise the
first one that fails was the last one to be evaluated. -/
def InOrder {α : Type} (env : Environment) (templates : List String) (filled : α) :
    α × Option Error → (calls : List String) → Prop
  | (final, none), calls =>
    (∀ x ∈ templates, ∃ r, evaluate x env = .ok r) ∧ calls = templates ∧ final = filled
  | (_, some e), calls => ∃ done x rest, templates = done ++ x :: rest ∧
    (∀ y ∈ done, ∃ r, evaluate y env = .ok r) ∧ evaluate x env = .error e ∧ calls = done ++ [x]

/-- A run writes its calls behind those in the log, and they are as they must be. -/
def RunsInOrder {α : Type} (env : Environment) (templates : List String) (filled : α)
    (run : StateM (List String) (α × Option Error)) : Prop :=
  ∀ calls, ∃ new, (run.run calls).2 = calls ++ new ∧
    InOrder env templates filled (run.run calls).1 new

theorem run_bind_proceed {α β : Type} (run : StateM (List String) (α × Option Error))
    (next : α → StateM (List String) (β × Option Error)) (stopped : α → β) (calls : List String) :
    (run >>= proceed next stopped).run calls =
      (proceed next stopped (run.run calls).1).run (run.run calls).2 := rfl

theorem runsInOrder_pure {α : Type} (a : α) : RunsInOrder env [] a (pure (a, none)) :=
  fun calls => ⟨[], (List.append_nil calls).symm, by simp, rfl, rfl⟩

/-- One run after another. -/
theorem RunsInOrder.andThen {α β : Type} {xs ys : List String} {a : α} {b : β}
    {run : StateM (List String) (α × Option Error)}
    {next : α → StateM (List String) (β × Option Error)} (h : RunsInOrder env xs a run)
    (hnext : RunsInOrder env ys b (next a)) (stopped : α → β) :
    RunsInOrder env (xs ++ ys) b (run >>= proceed next stopped) := by
  intro calls
  obtain ⟨new, hlog, hends⟩ := h calls
  rw [run_bind_proceed, hlog]
  generalize (run.run calls).1 = out at hends ⊢
  obtain ⟨final, _ | e⟩ := out
  · -- nothing failed, so the other run goes on with the log of this one
    obtain ⟨hok, rfl, rfl⟩ := hends
    obtain ⟨new', hlog', hends'⟩ := hnext (calls ++ new)
    rw [proceed]
    refine ⟨new ++ new', by rw [hlog', List.append_assoc], ?_⟩
    generalize ((next final).run (calls ++ new)).1 = out' at hends' ⊢
    obtain ⟨final', _ | e⟩ := out'
    · obtain ⟨hok', rfl, rfl⟩ := hends'
      exact ⟨List.forall_mem_append.mpr ⟨hok, hok'⟩, rfl, rfl⟩
    · obtain ⟨done, x, rest, rfl, hdone, hx, rfl⟩ := hends'
      exact ⟨new ++ done, x, rest, by simp, List.forall_mem_append.mpr ⟨hok, hdone⟩, hx, by simp⟩
  · obtain ⟨done, x, rest, rfl, hdone, hx, rfl⟩ := hends
    exact ⟨_, rfl, done, x, rest ++ ys, by simp, hdone, hx, rfl⟩

/-- A run whose result is put into something larger. -/
theorem RunsInOrder.within {α β : Type} {xs : List String} {a : α}
    {run : StateM (List String) (α × Option Error)} (h : RunsInOrder env xs a run) (g : α → β) :
    RunsInOrder env xs (g a) (run >>= proceed (fun a => pure (g a, none)) g) := by
  have hwithin : RunsInOrder env (xs ++ []) (g a)
      (run >>= proceed (fun a => pure (g a, none)) g) := h.andThen (runsInOrder_pure (g a)) g
  rwa [List.append_nil] at hwithin

/-- A fence evaluates its own template, if it has one. -/
theorem runsInOrder_fillFenceM (t : Tree) : RunsInOrder env (expression? options t).toList
    (filledFence options env t) (fillFenceM options (logged env) t) := by
  unfold fillFenceM filledFence
  cases expression? options t with
  | none => exact runsInOrder_pure t
  | some x =>
    intro calls
    refine ⟨[x], ?_, ?_⟩
    · rw [run_logged_bind]
      cases evaluate x env <;> rfl
    · rw [run_logged_bind]
      dsimp only
      cases hx : evaluate x env with
      | error e => exact ⟨[], x, [], rfl, by simp, hx, rfl⟩
      | ok r => exact ⟨by simp [hx], rfl, rfl⟩

theorem expression?_of_ne {k : Kind} (hk : ∀ f, k ≠ .fence f) (s : Option Text.Span)
    (cs : List Tree) : expression? options (.mk k s cs) = none := by
  cases k with
  | fence f => exact absurd rfl (hk f)
  | document => rfl
  | text content => rfl
  | other name => rfl

/-- The templates of a tree, among all its nodes. -/
theorem expressions_eq (t : Tree) :
    expressions options t = t.preorder.filterMap (expression? options) := by
  rw [expressions, Tree.fences, Tree.nodes_eq_preorder, List.filterMap_filter]
  refine congrArg (t.preorder.filterMap ·) (funext fun n => ?_)
  obtain ⟨k, s, cs⟩ := n
  by_cases hk : ∃ f, k = .fence f
  · obtain ⟨f, rfl⟩ := hk
    rfl
  · rw [expression?_of_ne (not_exists.mp hk)]
    split <;> rfl

/-- The only template in a fence that was read is its own. -/
theorem filterMap_fence (t : Tree) (body : String) :
    (t :: preorderList [leaf body none]).filterMap (expression? options) =
      (expression? options t).toList := by
  have hbelow : (preorderList [leaf body none]).filterMap (expression? options) = [] := rfl
  rw [List.filterMap_cons, hbelow]
  cases expression? options t <;> rfl

mutual

/-- The recursion evaluates the templates in order and changes every fence on its own. -/
theorem runsInOrder_fillTreeM : ∀ t : Tree, t.AsRead →
    RunsInOrder env (t.preorder.filterMap (expression? options))
      (t.mapFences (filledFence options env)) (fillTreeM options (logged env) t)
  | .mk k s cs, hread => by
    rw [Tree.preorder]
    by_cases hk : ∃ f, k = .fence f
    · obtain ⟨f, rfl⟩ := hk
      obtain rfl := hread.children
      rw [Tree.mapFences, fillTreeM, filterMap_fence]
      exact runsInOrder_fillFenceM _
    · have hk' := not_exists.mp hk
      rw [List.filterMap_cons_none (expression?_of_ne hk' s cs), Tree.mapFences_of_ne hk',
        fillTreeM_of_ne hk']
      exact (runsInOrder_fillTreesM cs hread.below).within _

theorem runsInOrder_fillTreesM : ∀ ts : List Tree, (∀ n ∈ preorderList ts, n.IsAsRead) →
    RunsInOrder env ((preorderList ts).filterMap (expression? options))
      (mapFencesList (filledFence options env) ts) (fillTreesM options (logged env) ts)
  | [], _ => runsInOrder_pure []
  | t :: ts, hread => by
    rw [preorderList] at hread ⊢
    obtain ⟨hfirst, hothers⟩ := List.forall_mem_append.mp hread
    rw [List.filterMap_append, mapFencesList, fillTreesM]
    exact (runsInOrder_fillTreeM t hfirst).andThen
      ((runsInOrder_fillTreesM ts hothers).within _) _

end

/-! ## What stays -/

/-- Every outcome of a run has a property, whatever was in the log. -/
def Always {α : Type} (p : α → Prop) (run : StateM (List String) (α × Option Error)) : Prop :=
  ∀ calls, p (run.run calls).1.1

theorem always_pure {α : Type} {p : α → Prop} {a : α} (h : p a) (error : Option Error) :
    Always p (pure (a, error)) := fun _ => h

theorem Always.andThen {α β : Type} {p : α → Prop} {q : β → Prop}
    {run : StateM (List String) (α × Option Error)}
    {next : α → StateM (List String) (β × Option Error)} {stopped : α → β} (h : Always p run)
    (hnext : ∀ a, p a → Always q (next a)) (hstopped : ∀ a, p a → q (stopped a)) :
    Always q (run >>= proceed next stopped) := by
  intro calls
  have ha := h calls
  rw [run_bind_proceed]
  generalize (run.run calls).1 = out at ha ⊢
  obtain ⟨a, _ | e⟩ := out
  · exact hnext a ha _
  · exact hstopped a ha

/-- A fence stays a fence, in its place. -/
theorem outside_fillFenceM (f : Fence) (s : Option Text.Span) (cs : List Tree) :
    Always (fun t => t.outside = (Tree.mk (.fence f) s cs).outside)
      (fillFenceM options (logged env) (.mk (.fence f) s cs)) := by
  intro calls
  unfold fillFenceM
  cases expression? options (.mk (.fence f) s cs) with
  | none => rfl
  | some x =>
    dsimp only
    rw [run_logged_bind]
    cases evaluate x env <;> rfl

mutual

/-- Whatever comes out, what is outside of fences is as it was. -/
theorem outside_fillTreeM : ∀ t : Tree,
    Always (fun t' => t'.outside = t.outside) (fillTreeM options (logged env) t)
  | .mk k s cs => by
    by_cases hk : ∃ f, k = .fence f
    · obtain ⟨f, rfl⟩ := hk
      exact outside_fillFenceM f s cs
    · have hk' := not_exists.mp hk
      have hput : ∀ cs', Tree.outsideList cs' = Tree.outsideList cs →
          (Tree.mk k s cs').outside = (Tree.mk k s cs).outside := by
        intro cs' h
        rw [Tree.outside_of_ne hk', Tree.outside_of_ne hk', h]
      rw [fillTreeM_of_ne hk']
      exact (outside_fillTreesM cs).andThen (fun cs' h => always_pure (hput cs' h) none) hput

theorem outside_fillTreesM : ∀ ts : List Tree,
    Always (fun ts' => Tree.outsideList ts' = Tree.outsideList ts)
      (fillTreesM options (logged env) ts)
  | [] => fun _ => rfl
  | t :: ts => by
    have hput : ∀ t' ts', t'.outside = t.outside → Tree.outsideList ts' = Tree.outsideList ts →
        Tree.outsideList (t' :: ts') = Tree.outsideList (t :: ts) := by
      intro t' ts' h hs
      rw [Tree.outsideList_cons, Tree.outsideList_cons, h, hs]
    rw [fillTreesM]
    refine (outside_fillTreeM t).andThen (fun t' h => ?_) (fun t' h => hput t' ts h rfl)
    exact (outside_fillTreesM ts).andThen (fun ts' hs => always_pure (hput t' ts' h hs) none)
      (fun ts' hs => hput t' ts' h hs)

end

/-! ## Trees that were read -/

/-- A tree that was read is filled in order. -/
theorem fill_inOrder (ns : Namespace) (options : Options) {t : Tree} (hread : t.AsRead) :
    ∃ calls, (fillM options (logged (environment ns options t)) t).run [] =
        (fill ns options t, calls) ∧
      InOrder (environment ns options t) (expressions options t)
        (t.mapFences (filledFence options (environment ns options t)))
        (fill ns options t) calls := by
  have hrun : RunsInOrder (environment ns options t) (expressions options t)
      (t.mapFences (filledFence options (environment ns options t)))
      (fillM options (logged (environment ns options t)) t) := by
    rw [fillM_eq_fillTreeM hread, expressions_eq]
    exact runsInOrder_fillTreeM t hread
  have hfill := fst_run_fillM ns options t []
  obtain ⟨calls, hlog, hends⟩ := hrun []
  rw [hfill] at hends
  exact ⟨calls, Prod.ext hfill hlog, hends⟩

/-- Nothing outside of fences changes in a tree that was read. -/
theorem outside_fill (ns : Namespace) (options : Options) {t : Tree} (hread : t.AsRead) :
    (fill ns options t).1.outside = t.outside := by
  rw [← fst_run_fillM ns options t [], fillM_eq_fillTreeM hread]
  exact outside_fillTreeM t []

end LiveDoc.Template
