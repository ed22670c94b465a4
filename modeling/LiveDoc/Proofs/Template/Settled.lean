import LiveDoc.Proofs.Template.FenceByFence
import LiveDoc.Proofs.Template.Walk

/-!
# Filling a tree twice

With a tag for templates, code that brings another language takes the tag away from its fence. A
tree whose templates all did so is settled: nothing in it is taken for a template any more, wherever
its fences and texts stand.

* **step** — `visitM_cons` says what one visited node can do, whatever evaluates;
* **run** — a walk that succeeds evaluates the templates (`mem_log_iff`), and one without templates
  evaluates nothing (`visitM_of_templateless`);
* **no template is new** — every node of a filled tree is a text that was filled, a fence that has a
  new language, or what it was (`Filled.kinds_cases`); so a template in it would have been one
  before (`Filled.not_isTemplate`).
-/

namespace LiveDoc.Template

open LiveDoc.Tree (Kind)

variable {options : Options} {env : Environment} {root t final : Tree} {n : Nat}

/-! ## One step of the walk -/

section Step

variable {m : Type → Type} [Monad m] (eval : String → m (Except Error Rendering))

/-- **One step.** A node without a template changes what waits, and nothing else. A template is
evaluated, and the walk goes on with what it gives or ends with its error. -/
theorem visitM_cons {path : List Nat} {waiting : Option (List Nat)} (rest : List (List Nat))
    (hpath : root.paths[n]? = some path) (hkind : (t.get? path).map Tree.kind = root.kinds[n]?)
    (hawaits : Awaits options root n waiting) :
    (∃ next, Awaits options root (n + 1) next ∧
      (∀ j fence x, ¬ IsTemplate options root.kinds j n fence x) ∧
      visitM options eval (path :: rest) waiting t = visitM options eval rest next t) ∨
    ∃ j fence fencePath x, root.paths[j]? = some fencePath ∧
      IsTemplate options root.kinds j n fence x ∧ Awaits options root (n + 1) none ∧
      visitM options eval (path :: rest) waiting t = eval x >>= fun
        | .error e => pure (t, some e)
        | .ok r => visitM options eval rest none (apply t path fencePath r) := by
  rw [visitM, hkind]
  -- a node that is neither fence nor text lets the same fence wait
  have hother : (∀ f, root.kinds[n]? ≠ some (.fence f)) → (∀ s, root.kinds[n]? ≠ some (.text s)) →
      Awaits options root (n + 1) waiting ∧
        ∀ j fence x, ¬ IsTemplate options root.kinds j n fence x := by
    intro hf ht
    refine ⟨?_, fun j fence x htemplate => ht x htemplate.text_at⟩
    cases waiting with
    | none => exact fun j fence hw => hawaits j fence ((Waiting.succ_iff hf ht).mp hw)
    | some path' =>
      obtain ⟨j, fence, hj, hw⟩ := hawaits
      exact ⟨j, fence, hj, (Waiting.succ_iff hf ht).mpr hw⟩
  cases hk : root.kinds[n]? with
  | none =>
    obtain ⟨hnext, hnone⟩ := hother (by simp [hk]) (by simp [hk])
    exact .inl ⟨waiting, hnext, hnone, rfl⟩
  | some k =>
    cases k with
    | document =>
      obtain ⟨hnext, hnone⟩ := hother (by simp [hk]) (by simp [hk])
      exact .inl ⟨waiting, hnext, hnone, rfl⟩
    | other name =>
      obtain ⟨hnext, hnone⟩ := hother (by simp [hk]) (by simp [hk])
      exact .inl ⟨waiting, hnext, hnone, rfl⟩
    | fence f =>
      refine .inl ⟨_, ?_, fun j fence x htemplate => ?_, rfl⟩
      · by_cases ha : options.accepts f = true
        · rw [if_pos ha]
          exact ⟨n, f, hpath, Waiting.ofFence hk ha⟩
        · rw [if_neg ha]
          intro j fence hw
          obtain ⟨rfl, rfl⟩ := hw.eq_of_fence hk
          exact ha hw.accepted
      · exact absurd htemplate.text_at (by simp [hk])
    | text content =>
      have hnext : Awaits options root (n + 1) none := fun j fence => Waiting.not_of_text hk
      cases waiting with
      | none =>
        exact .inl ⟨none, hnext, fun j fence x htemplate => hawaits j fence htemplate.waiting, rfl⟩
      | some fencePath =>
        obtain ⟨j, fence, hj, hw⟩ := hawaits
        dsimp only
        by_cases hblank : Text.isBlankText content.toList = true
        · rw [if_pos hblank]
          refine .inl ⟨none, hnext, fun j' fence' x htemplate => ?_, rfl⟩
          have hx := htemplate.text_at
          rw [hk, Option.some.injEq, Kind.text.injEq] at hx
          subst hx
          exact absurd htemplate.notBlank (by simp [hblank])
        · rw [if_neg hblank]
          exact .inr ⟨j, fence, fencePath, content, hj, ⟨hw, hk, by simpa using hblank⟩, hnext, rfl⟩

end Step

/-! ## The walk -/

/-- The first of the paths that are left is the one at the place where the walk is. -/
theorem of_drop_eq_cons {paths rest : List (List Nat)} {path : List Nat}
    (h : paths.drop n = path :: rest) : paths[n]? = some path ∧ paths.drop (n + 1) = rest := by
  constructor
  · rw [← Nat.add_zero n, ← List.getElem?_drop, h, List.getElem?_cons_zero]
  · rw [← List.drop_drop, h, List.drop_one, List.tail_cons]

/-- **A tree without templates** is not evaluated and stays as it is, whatever would evaluate. -/
theorem visitM_of_templateless {m : Type → Type} [Monad m]
    (eval : String → m (Except Error Rendering))
    (hnone : ∀ j i fence x, ¬ IsTemplate options root.kinds j i fence x) {rest : List (List Nat)}
    {waiting : Option (List Nat)} (hdrop : root.paths.drop n = rest)
    (hawaits : Awaits options root n waiting) :
    visitM options eval rest waiting root = pure (root, none) := by
  induction rest generalizing n waiting with
  | nil => rfl
  | cons path rest ih =>
    obtain ⟨hpath, hrest⟩ := of_drop_eq_cons hdrop
    rcases visitM_cons eval rest hpath (Tree.kind_of_paths hpath) hawaits with
      ⟨next, hnext, -, hvisit⟩ | ⟨j, fence, fencePath, x, -, htemplate, -, -⟩
    · rw [hvisit]
      exact ih hrest hnext
    · exact absurd htemplate (hnone j n fence x)

/-- **A walk that succeeds evaluates the templates** from its place on: they stand in the log behind
what was there. -/
theorem mem_log_iff {rest : List (List Nat)} {waiting : Option (List Nat)} {calls : List String}
    (hdrop : root.paths.drop n = rest) (hawaits : Awaits options root n waiting)
    (hfilled : Filled options env root n t)
    (hok : ((visitM options (logged env) rest waiting t).run calls).1 = (final, none))
    {x : String} :
    x ∈ ((visitM options (logged env) rest waiting t).run calls).2 ↔
      x ∈ calls ∨ ∃ j i fence, n ≤ i ∧ IsTemplate options root.kinds j i fence x := by
  induction rest generalizing n waiting t calls with
  | nil =>
    refine (or_iff_left ?_).symm
    rintro ⟨j, i, fence, hi, htemplate⟩
    have hlt := (List.getElem?_eq_some_iff.mp htemplate.text_at).1
    have hle := List.drop_eq_nil_iff.mp hdrop
    rw [Tree.length_paths] at hle
    omega
  | cons path rest ih =>
    obtain ⟨hpath, hrest⟩ := of_drop_eq_cons hdrop
    have hkind : (t.get? path).map Tree.kind = root.kinds[n]? := by
      rw [← hfilled.ahead (Nat.le_refl n)]
      exact Tree.kind_of_paths (by rw [Tree.paths_eq_of_skeleton_eq hfilled.skeleton, hpath])
    rcases visitM_cons (logged env) rest hpath hkind hawaits with
      ⟨next, hnext, hnone, hvisit⟩ | ⟨j, fence, fencePath, y, hj, htemplate, hnext, hvisit⟩
    · rw [hvisit] at hok ⊢
      have hfilled' : Filled options env root (n + 1) t := by
        refine hfilled.succ ?_
        rintro j fence r ⟨x, htemplate, -⟩
        exact hnone j fence x htemplate
      rw [ih hrest hnext hfilled' hok]
      refine or_congr_right ⟨?_, ?_⟩
      · rintro ⟨j, i, fence, hi, htemplate⟩
        exact ⟨j, i, fence, Nat.le_of_succ_le hi, htemplate⟩
      · rintro ⟨j, i, fence, hi, htemplate⟩
        have hne : n ≠ i := by
          rintro rfl
          exact hnone j fence x htemplate
        exact ⟨j, i, fence, Nat.lt_of_le_of_ne hi hne, htemplate⟩
    · rw [hvisit, run_logged_bind] at hok ⊢
      cases hy : evaluate y env with
      | error e =>
        rw [hy] at hok
        cases hok
      | ok r =>
        rw [hy] at hok
        have hgives : Gives options env root.kinds (n + 1) j n fence r :=
          ⟨y, htemplate, Nat.lt_succ_self n, hy⟩
        dsimp only at hok ⊢
        rw [ih hrest hnext (hfilled.step_apply hpath hj hgives) hok, List.mem_append, or_assoc]
        refine or_congr_right ⟨?_, ?_⟩
        · rintro (hx | ⟨j', i, fence', hi, htemplate'⟩)
          · rw [List.mem_singleton.mp hx]
            exact ⟨j, n, fence, Nat.le_refl n, htemplate⟩
          · exact ⟨j', i, fence', Nat.le_of_succ_le hi, htemplate'⟩
        · rintro ⟨j', i, fence', hi, htemplate'⟩
          rcases Nat.lt_or_eq_of_le hi with hlt | rfl
          · exact .inr ⟨j', i, fence', hlt, htemplate'⟩
          · exact .inl (List.mem_singleton.mpr (htemplate'.unique htemplate).2.2)

/-- No fence waits in front of a tree. -/
theorem awaits_zero (options : Options) (root : Tree) : Awaits options root 0 none := by
  intro j fence hw
  exact absurd hw.before (Nat.not_lt_zero j)

/-- The expressions that are evaluated when a tree is filled, in order. -/
def evaluations (ns : Namespace) (options : Options) (root : Tree) : List String :=
  ((fillM options (logged (environment ns options root)) root).run []).2

/-- A tree without children has no templates. -/
theorem not_isTemplate_of_childless {kinds : List Kind} (h : kinds.length = 1) {j i : Nat}
    {fence : Fence} {x : String} : ¬ IsTemplate options kinds j i fence x := by
  intro htemplate
  have hlt := (List.getElem?_eq_some_iff.mp htemplate.text_at).1
  have hbefore := htemplate.waiting.before
  omega

theorem length_kinds_of_childless (h : root.children.isEmpty = true) : root.kinds.length = 1 := by
  obtain ⟨k, s, cs⟩ := root
  rw [Tree.children, List.isEmpty_iff] at h
  subst h
  simp

/-- **What is evaluated** when a tree is filled without an error are its templates. -/
theorem mem_evaluations_iff {ns : Namespace} (h : fill ns options root = (final, none))
    {x : String} :
    x ∈ evaluations ns options root ↔ ∃ j i fence, IsTemplate options root.kinds j i fence x := by
  rw [← fst_run_fillM ns options root []] at h
  unfold evaluations
  unfold fillM at h ⊢
  split
  · next hempty =>
    refine iff_of_false List.not_mem_nil ?_
    rintro ⟨j, i, fence, htemplate⟩
    exact not_isTemplate_of_childless (length_kinds_of_childless hempty) htemplate
  · next hchildren =>
    rw [if_neg hchildren] at h
    rw [mem_log_iff List.drop_zero (awaits_zero options root) (.refl options _ root) h]
    simp

/-! ## The nodes of a filled tree -/

/-- **Each node of a filled tree** is a text that has what its template gave, a fence that has the
language of its template, or what it was. -/
theorem Filled.kinds_cases {stop : Nat} (h : Filled options env root stop final) (m : Nat) :
    (∃ j fence r, Gives options env root.kinds stop j m fence r ∧
      final.kinds[m]? = some (.text r.content)) ∨
    (∃ i fence r language, Gives options env root.kinds stop m i fence r ∧
      r.display.language? = some language ∧
      final.kinds[m]? = some (.fence { fence with language := some language, info := language })) ∨
    (∀ i fence r, Gives options env root.kinds stop m i fence r → r.display.language? = none) ∧
      final.kinds[m]? = root.kinds[m]? := by
  by_cases htext : ∃ j fence r, Gives options env root.kinds stop j m fence r
  · obtain ⟨j, fence, r, hg⟩ := htext
    exact .inl ⟨j, fence, r, hg, h.text hg⟩
  by_cases hfence : ∃ i fence r, Gives options env root.kinds stop m i fence r ∧
      r.display.language? ≠ none
  · obtain ⟨i, fence, r, hg, hl⟩ := hfence
    obtain ⟨language, hlanguage⟩ := Option.ne_none_iff_exists'.mp hl
    exact .inr (.inl ⟨i, fence, r, language, hg, hlanguage, h.language hg hlanguage⟩)
  · simp only [not_exists, not_and, Decidable.not_not] at htext hfence
    exact .inr (.inr ⟨hfence, h.rest m htext hfence⟩)

/-- Fences and texts stand where they stood. -/
theorem Filled.exists_fence {stop m : Nat} (h : Filled options env root stop final) {f : Fence}
    (hf : root.kinds[m]? = some (.fence f)) : ∃ f', final.kinds[m]? = some (.fence f') := by
  rcases h.kinds_cases m with ⟨j, fence, r, hg, -⟩ | ⟨i, fence, r, language, -, -, hnew⟩ |
    ⟨-, hsame⟩
  · obtain ⟨content, htext⟩ := hg.text_at
    rw [hf] at htext
    cases htext
  · exact ⟨_, hnew⟩
  · exact ⟨f, hsame.trans hf⟩

theorem Filled.exists_text {stop m : Nat} (h : Filled options env root stop final) {s : String}
    (hs : root.kinds[m]? = some (.text s)) : ∃ s', final.kinds[m]? = some (.text s') := by
  rcases h.kinds_cases m with ⟨j, fence, r, -, hnew⟩ | ⟨i, fence, r, language, hg, -, -⟩ |
    ⟨-, hsame⟩
  · exact ⟨_, hnew⟩
  · have hfence := hg.fence_at
    rw [hs] at hfence
    cases hfence
  · exact ⟨s, hsame.trans hs⟩

/-- A fence that still waits as it was has waited before. -/
theorem Filled.waiting_of_waiting {stop j i : Nat} {fence : Fence}
    (h : Filled options env root stop final) (hw : Waiting options final.kinds j i fence)
    (hsame : final.kinds[j]? = root.kinds[j]?) : Waiting options root.kinds j i fence := by
  refine ⟨hw.before, hsame.symm.trans hw.fence_at, hw.accepted, ?_, ?_⟩
  · intro m hj hi other hother
    obtain ⟨f, hf⟩ := h.exists_fence hother
    exact hw.last m hj hi f hf
  · intro m hj hi content hcontent
    obtain ⟨s, hs⟩ := h.exists_text hcontent
    exact hw.textless m hj hi s hs

/-- A rendering that gives its fence a language with which it is no template. -/
def Untags (options : Options) (r : Rendering) : Prop :=
  ∃ language, r.display.language? = some language ∧
    ∀ fence : Fence,
      options.accepts { fence with language := some language, info := language } = false

/-- **No text becomes a template.** When all templates gave code that takes their tag away, none is
left. -/
theorem Filled.not_isTemplate (h : Filled options env root root.kinds.length final)
    (hok : Succeeds options env root.kinds root.kinds.length)
    (huntags : ∀ j i fence r, Gives options env root.kinds root.kinds.length j i fence r →
      Untags options r) {j i : Nat} {fence : Fence} {x : String} :
    ¬ IsTemplate options final.kinds j i fence x := by
  intro htemplate
  have hfence := htemplate.waiting.fence_at
  rcases h.kinds_cases j with ⟨j', fence', r, -, hnew⟩ |
    ⟨i', fence', r, language, hg, hlanguage, hnew⟩ | ⟨hno, hsame⟩
  · rw [hnew] at hfence
    cases hfence
  · -- a fence with a new language is not accepted
    obtain ⟨language', hlanguage', hrejects⟩ := huntags j i' fence' r hg
    obtain rfl := Option.some.inj (hlanguage.symm.trans hlanguage')
    rw [hnew] at hfence
    have haccepted := htemplate.waiting.accepted
    rw [← Kind.fence.inj (Option.some.inj hfence), hrejects fence'] at haccepted
    cases haccepted
  · -- the fence is what it was, so it gave nothing
    have hnothing :
        ∀ i' fence' r, ¬ Gives options env root.kinds root.kinds.length j i' fence' r := by
      intro i' fence' r hg
      obtain ⟨language, hlanguage, -⟩ := huntags j i' fence' r hg
      rw [hno i' fence' r hg] at hlanguage
      cases hlanguage
    have hwaiting := h.waiting_of_waiting htemplate.waiting hsame
    rcases h.kinds_cases i with ⟨j', fence', r, hg, -⟩ |
      ⟨i', fence', r, language, -, -, hnew⟩ | ⟨-, htext⟩
    · -- its text was filled, from this fence
      obtain ⟨y, htemplate', -⟩ := id hg
      obtain ⟨rfl, rfl⟩ := htemplate'.waiting.unique hwaiting
      exact hnothing i _ r hg
    · have hx := htemplate.text_at
      rw [hnew] at hx
      cases hx
    · -- its text is what it was, and was a template
      have hbefore : IsTemplate options root.kinds j i fence x :=
        ⟨hwaiting, htext.symm.trans htemplate.text_at, htemplate.notBlank⟩
      have hlt := (List.getElem?_eq_some_iff.mp hbefore.text_at).1
      obtain ⟨r, hr⟩ := hok j i fence x hbefore hlt
      exact hnothing i fence r ⟨x, hbefore, hlt, hr⟩

/-! ## Filling again -/

/-- **A filled tree is settled.** If filling a tree with a tag succeeds, and everything that was
evaluated gave code of a language that does not have the tag for its first word, then filling the
result again with these options evaluates nothing and changes nothing, whatever the names stand
for. -/
theorem fill_settled {ns : Namespace} {tag : String} (htag : options.tag = some tag)
    (hfill : fill ns options root = (final, none))
    (hcode : ∀ x ∈ evaluations ns options root, ∀ r,
      evaluate x (environment ns options root) = .ok r → ∃ language, r.display = .code language ∧
        (Text.words language.toList).head? ≠ some tag.toList) :
    (∀ ns', fill ns' options final = (final, none) ∧ evaluations ns' options final = []) ∧
      ∀ {m : Type → Type} [Monad m] (eval : String → m (Except Error Rendering)),
        fillM options eval final = pure (final, none) := by
  have hends := fill_ends ns options root
  rw [hfill] at hends
  obtain ⟨hok, hfilled⟩ := hends
  have huntags : ∀ j i fence r,
      Gives options (environment ns options root) root.kinds root.kinds.length j i fence r →
        Untags options r := by
    rintro j i fence r ⟨x, htemplate, -, hr⟩
    have hx := (mem_evaluations_iff hfill).mpr ⟨j, i, fence, htemplate⟩
    obtain ⟨language, hlanguage, hword⟩ := hcode x hx r hr
    refine ⟨language, by rw [hlanguage, Display.language?], fun fence => ?_⟩
    simp [Options.accepts, htag, hword]
  have hnone : ∀ j i fence x, ¬ IsTemplate options final.kinds j i fence x :=
    fun j i fence x => hfilled.not_isTemplate hok huntags
  have hagain : ∀ {m : Type → Type} [Monad m] (eval : String → m (Except Error Rendering)),
      fillM options eval final = pure (final, none) := by
    intro m _ eval
    unfold fillM
    split
    · rfl
    · exact visitM_of_templateless eval hnone List.drop_zero (awaits_zero options final)
  refine ⟨fun ns' => ⟨?_, ?_⟩, hagain⟩
  · rw [← fst_run_fillM ns' options final [], hagain]
    rfl
  · rw [evaluations, hagain]
    rfl

/-- A fence that another one takes the turn of, with a paragraph whose first text is the template,
and a fence without the tag. -/
def scattered : Tree :=
  .mk .document none
    [.mk (.fence (.ofParsed (some "run") "run" "")) none [],
      .mk (.fence (.ofParsed (some "run") "run it" "")) none [.mk (.other "break") none []],
      .mk (.other "paragraph") none [.leaf "sample" none, .leaf "sample" none],
      .mk (.fence (.ofParsed (some "sh") "sh" "")) none [.leaf "sample" none]]

/-- The same with the template filled. -/
def scatteredFilled : Tree :=
  .mk .document none
    [.mk (.fence (.ofParsed (some "run") "run" "")) none [],
      .mk (.fence ⟨some "rust", "rust", "run it", ""⟩) none [.mk (.other "break") none []],
      .mk (.other "paragraph") none [.leaf "f();" none, .leaf "sample" none],
      .mk (.fence (.ofParsed (some "sh") "sh" "")) none [.leaf "sample" none]]

/-- One name, which stands for code. -/
def sampleNames : Namespace := ⟨[], [("sample", .rendering (.code "f();" "rust"))]⟩

theorem fill_settled_scattered :
    fill sampleNames ⟨some "run", true⟩ scattered = (scatteredFilled, none) ∧
      evaluations sampleNames ⟨some "run", true⟩ scattered = ["sample"] ∧
      fill sampleNames ⟨some "run", true⟩ scatteredFilled = (scatteredFilled, none) := by
  have hfill : fill sampleNames ⟨some "run", true⟩ scattered = (scatteredFilled, none) := by
    decide +kernel
  have hcalls : evaluations sampleNames ⟨some "run", true⟩ scattered = ["sample"] := by
    decide +kernel
  refine ⟨hfill, hcalls, ((fill_settled rfl hfill ?_).1 _).1⟩
  intro x hx r hr
  rw [hcalls] at hx
  obtain rfl := List.mem_singleton.mp hx
  have hvalue : evaluate "sample" (environment sampleNames ⟨some "run", true⟩ scattered) =
      .ok (.code "f();" "rust") := by rfl
  rw [hvalue] at hr
  obtain rfl := Except.ok.inj hr
  exact ⟨"rust", rfl, by decide⟩

end LiveDoc.Template
