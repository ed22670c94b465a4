import LiveDoc.Proofs.Tree.Traversal
import LiveDoc.Template

/-!
# What the walk over templates does

`visit` goes along the paths of a tree that it changes on the way. What it does is said here without
paths and without a walk, by the places of nodes in the tree as it was before:

* **pairing** — a fence is `Waiting` at the places behind it, up to the first fence or text; a text
  where a fence waits makes a template (`IsTemplate`) when it is not blank;
* **result** — a tree is `Filled` up to a place when the templates before that place took what they
  evaluate to and nothing else changed; there is one such tree (`Filled.unique`);
* **step and run** — one visited node keeps `Filled` (`Filled.step_apply`, `Filled.succ`) and the
  waiting fence (`Awaits`), so the walk ends with the tree that is filled up to its end, or up to
  the first template that fails (`fill_ends`).
-/

namespace LiveDoc.Template

open LiveDoc.Tree (Kind)

/-- Fence number `j` waits at place `i`: it is the last fence before the place, it is taken for a
template, and no text is in between. -/
structure Waiting (options : Options) (kinds : List Kind) (j i : Nat) (fence : Fence) : Prop where
  before : j < i
  fence_at : kinds[j]? = some (.fence fence)
  accepted : options.accepts fence = true
  last : ∀ m, j < m → m < i → ∀ other, kinds[m]? ≠ some (.fence other)
  textless : ∀ m, j < m → m < i → ∀ content, kinds[m]? ≠ some (.text content)

/-- Text number `i` is the expression of a template whose fence is number `j`. -/
structure IsTemplate (options : Options) (kinds : List Kind) (j i : Nat) (fence : Fence)
    (expression : String) : Prop where
  waiting : Waiting options kinds j i fence
  text_at : kinds[i]? = some (.text expression)
  notBlank : Text.isBlankText expression.toList = false

/-- The template with fence `j` and text `i`, which stands before place `stop`, gives a
rendering. -/
def Gives (options : Options) (env : Environment) (kinds : List Kind) (stop j i : Nat)
    (fence : Fence) (r : Rendering) : Prop :=
  ∃ expression, IsTemplate options kinds j i fence expression ∧ i < stop ∧
    evaluate expression env = .ok r

/-- The tree `final` is `root` with what the templates before place `stop` give: their texts have
the new contents, fences of code have its language, and all else is as it was. -/
structure Filled (options : Options) (env : Environment) (root : Tree) (stop : Nat)
    (final : Tree) : Prop where
  skeleton : final.skeleton = root.skeleton
  text : ∀ {j i fence r}, Gives options env root.kinds stop j i fence r →
    final.kinds[i]? = some (.text r.content)
  language : ∀ {j i fence r language}, Gives options env root.kinds stop j i fence r →
    r.display.language? = some language →
    final.kinds[j]? = some (.fence { fence with language := some language, info := language })
  rest : ∀ m, (∀ j fence r, ¬ Gives options env root.kinds stop j m fence r) →
    (∀ i fence r, Gives options env root.kinds stop m i fence r → r.display.language? = none) →
    final.kinds[m]? = root.kinds[m]?

/-- All templates before place `stop` give renderings. -/
def Succeeds (options : Options) (env : Environment) (kinds : List Kind) (stop : Nat) : Prop :=
  ∀ j i fence expression, IsTemplate options kinds j i fence expression → i < stop →
    ∃ r, evaluate expression env = .ok r

variable {options : Options} {env : Environment} {root t : Tree} {kinds : List Kind}

/-! ## Pairing -/

/-- One fence waits at a place, at most. -/
theorem Waiting.unique {j j' i : Nat} {fence fence' : Fence}
    (h : Waiting options kinds j i fence) (h' : Waiting options kinds j' i fence') :
    j = j' ∧ fence = fence' := by
  have hj : j = j' := by
    rcases Nat.lt_trichotomy j j' with hlt | heq | hgt
    · exact absurd h'.fence_at (h.last j' hlt h'.before fence')
    · exact heq
    · exact absurd h.fence_at (h'.last j hgt h.before fence)
  subst hj
  have hf := h.fence_at.symm.trans h'.fence_at
  simp only [Option.some.injEq, Kind.fence.injEq] at hf
  exact ⟨rfl, hf⟩

/-- A fence that is taken for a template waits right behind it. -/
theorem Waiting.ofFence {n : Nat} {fence : Fence} (hk : kinds[n]? = some (.fence fence))
    (ha : options.accepts fence = true) : Waiting options kinds n (n + 1) fence :=
  ⟨Nat.lt_succ_self n, hk, ha, fun m h₁ h₂ => absurd h₂ (by omega),
    fun m h₁ h₂ => absurd h₂ (by omega)⟩

/-- Behind a fence no other one waits. -/
theorem Waiting.eq_of_fence {j n : Nat} {fence other : Fence}
    (h : Waiting options kinds j (n + 1) fence) (hk : kinds[n]? = some (.fence other)) :
    j = n ∧ fence = other := by
  have hj : j = n := by
    rcases Nat.lt_or_ge j n with hlt | hge
    · exact absurd hk (h.last n hlt (Nat.lt_succ_self n) other)
    · have := h.before
      omega
  subst hj
  have hf := h.fence_at.symm.trans hk
  simp only [Option.some.injEq, Kind.fence.injEq] at hf
  exact ⟨rfl, hf⟩

/-- Behind a text no fence waits. -/
theorem Waiting.not_of_text {j n : Nat} {fence : Fence} {content : String}
    (hk : kinds[n]? = some (.text content)) : ¬ Waiting options kinds j (n + 1) fence := by
  intro h
  rcases Nat.lt_or_ge j n with hlt | hge
  · exact h.textless n hlt (Nat.lt_succ_self n) content hk
  · have hj : j = n := by
      have := h.before
      omega
    subst hj
    exact absurd h.fence_at (by simp [hk])

/-- A node that is neither a fence nor a text changes nothing for the fence that waits. -/
theorem Waiting.succ_iff {j n : Nat} {fence : Fence}
    (hf : ∀ other, kinds[n]? ≠ some (.fence other))
    (ht : ∀ content, kinds[n]? ≠ some (.text content)) :
    Waiting options kinds j (n + 1) fence ↔ Waiting options kinds j n fence := by
  constructor
  · intro h
    have hj : j < n := by
      rcases Nat.lt_or_ge j n with hlt | hge
      · exact hlt
      · have hjn : j = n := by
          have := h.before
          omega
        exact absurd (hjn ▸ h.fence_at) (hf fence)
    exact ⟨hj, h.fence_at, h.accepted, fun m h₁ h₂ => h.last m h₁ (Nat.lt_succ_of_lt h₂),
      fun m h₁ h₂ => h.textless m h₁ (Nat.lt_succ_of_lt h₂)⟩
  · intro h
    refine ⟨Nat.lt_succ_of_lt h.before, h.fence_at, h.accepted, ?_, ?_⟩
    · intro m h₁ h₂
      rcases Nat.lt_succ_iff_lt_or_eq.mp h₂ with hlt | rfl
      · exact h.last m h₁ hlt
      · exact hf
    · intro m h₁ h₂
      rcases Nat.lt_succ_iff_lt_or_eq.mp h₂ with hlt | rfl
      · exact h.textless m h₁ hlt
      · exact ht

/-- A text belongs to one template, at most. -/
theorem IsTemplate.unique {j j' i : Nat} {fence fence' : Fence} {expression expression' : String}
    (h : IsTemplate options kinds j i fence expression)
    (h' : IsTemplate options kinds j' i fence' expression') :
    j = j' ∧ fence = fence' ∧ expression = expression' := by
  obtain ⟨hj, hf⟩ := h.waiting.unique h'.waiting
  have ht := h.text_at.symm.trans h'.text_at
  simp only [Option.some.injEq, Kind.text.injEq] at ht
  exact ⟨hj, hf, ht⟩

/-- A fence belongs to one template, at most: the text behind it that comes first. -/
theorem IsTemplate.unique_text {j i i' : Nat} {fence fence' : Fence}
    {expression expression' : String} (h : IsTemplate options kinds j i fence expression)
    (h' : IsTemplate options kinds j i' fence' expression') : i = i' := by
  rcases Nat.lt_trichotomy i i' with hlt | heq | hgt
  · exact absurd h.text_at (h'.waiting.textless i h.waiting.before hlt expression)
  · exact heq
  · exact absurd h'.text_at (h.waiting.textless i' h'.waiting.before hgt expression')

/-! ## The places that are filled -/

theorem Gives.mono {stop stop' j i : Nat} {fence : Fence} {r : Rendering} (hle : stop ≤ stop')
    (h : Gives options env kinds stop j i fence r) : Gives options env kinds stop' j i fence r := by
  obtain ⟨expression, ht, hi, he⟩ := h
  exact ⟨expression, ht, Nat.lt_of_lt_of_le hi hle, he⟩

/-- A text gets one rendering. -/
theorem Gives.unique {stop j j' i : Nat} {fence fence' : Fence} {r r' : Rendering}
    (h : Gives options env kinds stop j i fence r)
    (h' : Gives options env kinds stop j' i fence' r') : j = j' ∧ fence = fence' ∧ r = r' := by
  obtain ⟨expression, ht, _, he⟩ := h
  obtain ⟨expression', ht', _, he'⟩ := h'
  obtain ⟨hj, hf, hx⟩ := ht.unique ht'
  rw [hx, he', Except.ok.injEq] at he
  exact ⟨hj, hf, he.symm⟩

theorem Gives.text_at {stop j i : Nat} {fence : Fence} {r : Rendering}
    (h : Gives options env kinds stop j i fence r) :
    ∃ content, kinds[i]? = some (.text content) := by
  obtain ⟨expression, ht, _, _⟩ := h
  exact ⟨expression, ht.text_at⟩

theorem Gives.fence_at {stop j i : Nat} {fence : Fence} {r : Rendering}
    (h : Gives options env kinds stop j i fence r) : kinds[j]? = some (.fence fence) := by
  obtain ⟨_, ht, _, _⟩ := h
  exact ht.waiting.fence_at

/-- What is given up to the next place was given before, or is given to the text there. -/
theorem Gives.of_succ {n j i : Nat} {fence : Fence} {r : Rendering}
    (h : Gives options env kinds (n + 1) j i fence r) :
    Gives options env kinds n j i fence r ∨ i = n := by
  obtain ⟨expression, ht, hi, he⟩ := h
  rcases Nat.lt_succ_iff_lt_or_eq.mp hi with hlt | heq
  · exact Or.inl ⟨expression, ht, hlt, he⟩
  · exact Or.inr heq

/-- Nothing is changed before the first place. -/
theorem Filled.refl (options : Options) (env : Environment) (root : Tree) :
    Filled options env root 0 root := by
  refine ⟨rfl, ?_, ?_, fun _ _ _ => rfl⟩
  · rintro j i fence r ⟨_, _, hi, _⟩
    exact absurd hi (Nat.not_lt_zero i)
  · rintro j i fence r language ⟨_, _, hi, _⟩
    exact absurd hi (Nat.not_lt_zero i)

/-- The nodes from the place on are as they were. -/
theorem Filled.ahead {n m : Nat} (h : Filled options env root n t) (hm : n ≤ m) :
    t.kinds[m]? = root.kinds[m]? := by
  apply h.rest
  · rintro j fence r ⟨_, _, hlt, _⟩
    omega
  · rintro i fence r ⟨_, ht, hlt, _⟩
    have := ht.waiting.before
    omega

/-- There is one tree that is filled up to a place. -/
theorem Filled.unique {n : Nat} {t' : Tree} (h : Filled options env root n t)
    (h' : Filled options env root n t') : t = t' := by
  refine Tree.eq_of_skeleton_eq (h.skeleton.trans h'.skeleton.symm) (List.ext_getElem? ?_)
  intro m
  by_cases htext : ∃ j fence r, Gives options env root.kinds n j m fence r
  · obtain ⟨j, fence, r, hg⟩ := htext
    rw [h.text hg, h'.text hg]
  · by_cases hfence : ∃ i fence r, Gives options env root.kinds n m i fence r ∧
        r.display.language? ≠ none
    · obtain ⟨i, fence, r, hg, hl⟩ := hfence
      obtain ⟨language, hlang⟩ := Option.ne_none_iff_exists'.mp hl
      rw [h.language hg hlang, h'.language hg hlang]
    · simp only [not_exists, not_and, Decidable.not_not] at htext hfence
      rw [h.rest m htext hfence, h'.rest m htext hfence]

/-- A place without a template that gives something changes nothing. -/
theorem Filled.succ {n : Nat} (h : Filled options env root n t)
    (hn : ∀ j fence r, ¬ Gives options env root.kinds (n + 1) j n fence r) :
    Filled options env root (n + 1) t := by
  have hback : ∀ {j i fence r}, Gives options env root.kinds (n + 1) j i fence r →
      Gives options env root.kinds n j i fence r := by
    intro j i fence r hg
    rcases hg.of_succ with hold | rfl
    · exact hold
    · exact absurd hg (hn j fence r)
  refine ⟨h.skeleton, fun hg => h.text (hback hg), fun hg => h.language (hback hg), ?_⟩
  intro m htext hfence
  exact h.rest m (fun j fence r hg => htext j fence r (hg.mono (Nat.le_succ n)))
    (fun i fence r hg => hfence i fence r (hg.mono (Nat.le_succ n)))

/-! ## One template -/

/-- A text gets another content; other kinds stay. -/
def withContent (content : String) : Kind → Kind
  | .text _ => .text content
  | k => k

/-- A fence gets another language; other kinds stay. -/
def withLanguage (language : String) : Kind → Kind
  | .fence f => .fence { f with language := some language, info := language }
  | k => k

theorem setText_eq_mapKind (content : String) :
    setText content = Tree.mapKind (withContent content) := by
  funext t
  obtain ⟨k, s, cs⟩ := t
  cases k <;> rfl

theorem setLanguage_eq_mapKind (language : String) :
    setLanguage language = Tree.mapKind (withLanguage language) := by
  funext t
  obtain ⟨k, s, cs⟩ := t
  cases k <;> rfl

theorem skeleton_apply (t : Tree) (text fence : List Nat) (r : Rendering) :
    (apply t text fence r).skeleton = t.skeleton := by
  unfold apply
  rw [setText_eq_mapKind]
  split
  · rw [setLanguage_eq_mapKind, Tree.skeleton_update, Tree.skeleton_update]
  · rw [Tree.skeleton_update]

/-- The kinds behind `apply`: that of the text, and that of the fence when there is a language. -/
theorem kinds_apply {text fence : List Nat} {i j : Nat} (r : Rendering)
    (hi : t.paths[i]? = some text) (hj : t.paths[j]? = some fence) :
    (apply t text fence r).kinds =
      match r.display.language? with
      | some language =>
        (t.kinds.modify i (withContent r.content)).modify j (withLanguage language)
      | none => t.kinds.modify i (withContent r.content) := by
  unfold apply
  rw [setText_eq_mapKind]
  cases r.display.language? with
  | none => exact Tree.kinds_update _ hi
  | some language =>
    have hj' : (t.update (Tree.mapKind (withContent r.content)) text).paths[j]? = some fence := by
      rw [Tree.paths_update]
      exact hj
    simp only [setLanguage_eq_mapKind]
    rw [Tree.kinds_update _ hj', Tree.kinds_update _ hi]

/-- A template that gives a rendering fills its place. -/
theorem Filled.step_apply {n j : Nat} {text path : List Nat} {fence : Fence} {r : Rendering}
    (h : Filled options env root n t) (hn : root.paths[n]? = some text)
    (hj : root.paths[j]? = some path)
    (hg : Gives options env root.kinds (n + 1) j n fence r) :
    Filled options env root (n + 1) (apply t text path r) := by
  obtain ⟨expression, htemplate, _, _⟩ := id hg
  obtain ⟨content, htext⟩ := hg.text_at
  have hfence := hg.fence_at
  have hjn : j < n := htemplate.waiting.before
  have hpaths : t.paths = root.paths := Tree.paths_eq_of_skeleton_eq h.skeleton
  have hkinds := kinds_apply (t := t) r (hpaths ▸ hn) (hpaths ▸ hj)
  have htn : t.kinds[n]? = some (.text content) := (h.ahead (Nat.le_refl n)).trans htext
  -- only this template has the fence `j`, so the walk did not touch it before
  have htj : t.kinds[j]? = some (.fence fence) := by
    rw [← hfence]
    apply h.rest
    · intro j' fence' r' hg'
      obtain ⟨content', hc⟩ := hg'.text_at
      rw [hfence] at hc
      exact absurd hc (by simp)
    · intro i' fence' r' hg'
      obtain ⟨_, ht', hlt, _⟩ := id hg'
      have := htemplate.unique_text ht'
      omega
  have hother : ∀ m, m ≠ n → (m = j → r.display.language? = none) →
      (apply t text path r).kinds[m]? = t.kinds[m]? := by
    intro m hmn hmj
    rw [hkinds]
    cases hl : r.display.language? with
    | none => exact List.getElem?_modify_ne _ _ (Ne.symm hmn)
    | some language =>
      have hjm : j ≠ m := by
        intro heq
        rw [hmj heq.symm] at hl
        exact absurd hl (by simp)
      simp only
      rw [List.getElem?_modify_ne _ _ hjm, List.getElem?_modify_ne _ _ (Ne.symm hmn)]
  have hnew : (apply t text path r).kinds[n]? = some (.text r.content) := by
    rw [hkinds]
    cases hl : r.display.language? with
    | none => simp [htn, withContent]
    | some language =>
      simp only
      rw [List.getElem?_modify_ne _ _ (Nat.ne_of_lt hjn), List.getElem?_modify_eq, htn]
      rfl
  refine ⟨(skeleton_apply t text path r).trans h.skeleton, ?_, ?_, ?_⟩
  · -- texts: the one at `n` is new, and those before it are neither `n` nor the fence
    intro j' i' fence' r' hg'
    rcases hg'.of_succ with hold | rfl
    · obtain ⟨content', hc⟩ := hold.text_at
      obtain ⟨_, _, hlt, _⟩ := id hold
      have hi'j : i' ≠ j := by
        rintro rfl
        rw [hfence] at hc
        exact absurd hc (by simp)
      rw [hother i' (Nat.ne_of_lt hlt) (fun heq => absurd heq hi'j), h.text hold]
    · rw [hnew, (hg.unique hg').2.2]
  · -- languages: that of `j` is new, and the other fences are untouched
    intro j' i' fence' r' language hg' hl
    rcases hg'.of_succ with hold | rfl
    · obtain ⟨_, ht', hlt, _⟩ := id hold
      have hj'n : j' ≠ n := by
        have := ht'.waiting.before
        omega
      have hj'j : j' ≠ j := by
        rintro rfl
        have := htemplate.unique_text ht'
        omega
      rw [hother j' hj'n (fun heq => absurd heq hj'j), h.language hold hl]
    · obtain ⟨rfl, rfl, rfl⟩ := hg.unique hg'
      rw [hkinds, hl]
      simp only
      rw [List.getElem?_modify_eq, List.getElem?_modify_ne _ _ (Ne.symm (Nat.ne_of_lt hjn)), htj]
      rfl
  · intro m hno hnolang
    have hmn : m ≠ n := by
      rintro rfl
      exact hno j fence r hg
    rw [hother m hmn (fun heq => hnolang n fence r (heq ▸ hg)), h.rest m]
    · exact fun j' fence' r' hg' => hno j' fence' r' (hg'.mono (Nat.le_succ n))
    · exact fun i' fence' r' hg' => hnolang i' fence' r' (hg'.mono (Nat.le_succ n))

/-! ## The walk -/

/-- What the walk waits for at place `n`: the path of the fence that waits there, if one does. -/
def Awaits (options : Options) (root : Tree) (n : Nat) : Option (List Nat) → Prop
  | none => ∀ j fence, ¬ Waiting options root.kinds j n fence
  | some path => ∃ j fence, root.paths[j]? = some path ∧ Waiting options root.kinds j n fence

/-- How a walk over a tree ends: with all templates filled, or at the first one that fails. -/
def Ends (options : Options) (env : Environment) (root : Tree) : Tree × Option Error → Prop
  | (final, none) =>
    Succeeds options env root.kinds root.kinds.length ∧
      Filled options env root root.kinds.length final
  | (final, some e) => ∃ j i fence expression,
      IsTemplate options root.kinds j i fence expression ∧ evaluate expression env = .error e ∧
        Succeeds options env root.kinds i ∧ Filled options env root i final

theorem Succeeds.succ {n : Nat} (h : Succeeds options env kinds n)
    (hn : ∀ j fence expression, IsTemplate options kinds j n fence expression →
      ∃ r, evaluate expression env = .ok r) : Succeeds options env kinds (n + 1) := by
  intro j i fence expression ht hi
  rcases Nat.lt_succ_iff_lt_or_eq.mp hi with hlt | rfl
  · exact h j i fence expression ht hlt
  · exact hn j fence expression ht

/-- A walk that starts at place `n` with the right tree and the right fence ends as it must. -/
theorem visit_ends (rest : List (List Nat)) : ∀ (n : Nat) (waiting : Option (List Nat)) (t : Tree),
    root.paths.drop n = rest → Awaits options root n waiting → Filled options env root n t →
    Succeeds options env root.kinds n →
      Ends options env root (visit options env rest waiting t) := by
  induction rest with
  | nil =>
    intro n waiting t hdrop _ hfilled hok
    have hlen : root.kinds.length ≤ n := by
      rw [← Tree.length_paths]
      exact List.drop_eq_nil_iff.mp hdrop
    refine ⟨fun j i fence expression ht _ => hok j i fence expression ht ?_, ?_⟩
    · have := (List.getElem?_eq_some_iff.mp ht.text_at).1
      omega
    · have hback : ∀ {j i fence r}, Gives options env root.kinds n j i fence r ↔
          Gives options env root.kinds root.kinds.length j i fence r := by
        intro j i fence r
        refine ⟨?_, Gives.mono hlen⟩
        rintro ⟨expression, ht, _, he⟩
        exact ⟨expression, ht, (List.getElem?_eq_some_iff.mp ht.text_at).1, he⟩
      exact ⟨hfilled.skeleton, fun hg => hfilled.text (hback.mpr hg),
        fun hg => hfilled.language (hback.mpr hg), fun m htext hfence => hfilled.rest m
          (fun j fence r hg => htext j fence r (hback.mp hg))
          (fun i fence r hg => hfence i fence r (hback.mp hg))⟩
  | cons path rest ih =>
    intro n waiting t hdrop hawaits hfilled hok
    have hpath : root.paths[n]? = some path := by
      rw [← Nat.add_zero n, ← List.getElem?_drop, hdrop, List.getElem?_cons_zero]
    have hrest : root.paths.drop (n + 1) = rest := by
      rw [← List.drop_drop, hdrop, List.drop_one, List.tail_cons]
    have hkind : (t.get? path).map Tree.kind = root.kinds[n]? := by
      rw [← hfilled.ahead (Nat.le_refl n)]
      exact Tree.kind_of_paths (by rw [Tree.paths_eq_of_skeleton_eq hfilled.skeleton, hpath])
    -- a place without a template keeps tree and success
    have hskip : (∀ j fence expression, ¬ IsTemplate options root.kinds j n fence expression) →
        ∀ next, Awaits options root (n + 1) next →
          Ends options env root (visit options env rest next t) := by
      intro hnone next hnext
      refine ih (n + 1) next t hrest hnext (hfilled.succ ?_) (hok.succ ?_)
      · rintro j fence r ⟨expression, ht, _, _⟩
        exact hnone j fence expression ht
      · exact fun j fence expression ht => absurd ht (hnone j fence expression)
    have hother : (∀ f, root.kinds[n]? ≠ some (.fence f)) →
        (∀ s, root.kinds[n]? ≠ some (.text s)) →
          Ends options env root (visit options env rest waiting t) := by
      intro hf ht
      refine hskip (fun j fence expression htemplate => ht expression htemplate.text_at) waiting ?_
      cases waiting with
      | none => exact fun j fence hw => hawaits j fence ((Waiting.succ_iff hf ht).mp hw)
      | some path' =>
        obtain ⟨j, fence, hj, hw⟩ := hawaits
        exact ⟨j, fence, hj, (Waiting.succ_iff hf ht).mpr hw⟩
    rw [visit, hkind]
    cases hk : root.kinds[n]? with
    | none => exact hother (by simp [hk]) (by simp [hk])
    | some k =>
      cases k with
      | document => exact hother (by simp [hk]) (by simp [hk])
      | other name => exact hother (by simp [hk]) (by simp [hk])
      | fence f =>
        apply hskip
        · intro j fence expression htemplate
          exact absurd htemplate.text_at (by simp [hk])
        · by_cases ha : options.accepts f = true
          · rw [if_pos ha]
            exact ⟨n, f, hpath, Waiting.ofFence hk ha⟩
          · rw [if_neg ha]
            intro j fence hw
            obtain ⟨rfl, rfl⟩ := hw.eq_of_fence hk
            exact ha hw.accepted
      | text content =>
        have hnext : Awaits options root (n + 1) none :=
          fun j fence => Waiting.not_of_text hk
        cases waiting with
        | none =>
          exact hskip (fun j fence expression htemplate =>
            hawaits j fence htemplate.waiting) none hnext
        | some fencePath =>
          obtain ⟨j, fence, hj, hw⟩ := hawaits
          simp only
          by_cases hblank : Text.isBlankText content.toList = true
          · rw [if_pos hblank]
            refine hskip ?_ none hnext
            intro j' fence' expression htemplate
            have hx := htemplate.text_at
            rw [hk, Option.some.injEq, Kind.text.injEq] at hx
            subst hx
            exact absurd htemplate.notBlank (by simp [hblank])
          · rw [if_neg hblank]
            have htemplate : IsTemplate options root.kinds j n fence content :=
              ⟨hw, hk, by simpa using hblank⟩
            cases he : evaluate content env with
            | error e => exact ⟨j, n, fence, content, htemplate, he, hok, hfilled⟩
            | ok r =>
              refine ih (n + 1) none _ hrest hnext (hfilled.step_apply hpath hj
                ⟨content, htemplate, Nat.lt_succ_self n, he⟩) (hok.succ ?_)
              intro j' fence' expression ht'
              obtain ⟨_, _, rfl⟩ := htemplate.unique ht'
              exact ⟨r, he⟩

/-- The walk over a whole tree ends as it must. -/
theorem fill_ends (ns : Namespace) (options : Options) (root : Tree) :
    Ends options (environment ns options root) root (fill ns options root) := by
  have hwhole : Ends options (environment ns options root) root
      (visit options (environment ns options root) root.paths none root) := by
    apply visit_ends root.paths 0 none root List.drop_zero
    · intro j fence hw
      exact absurd hw.before (Nat.not_lt_zero j)
    · exact Filled.refl options _ root
    · intro j i fence expression _ hi
      exact absurd hi (Nat.not_lt_zero i)
  unfold fill
  split
  · next hempty =>
    -- a tree without children has one node, where no fence waits for a text
    obtain ⟨k, s, cs⟩ := root
    rw [Tree.children, List.isEmpty_iff] at hempty
    subst hempty
    cases k <;> simpa [Tree.paths, Tree.walkPaths, Tree.size, Tree.sizeList, Tree.pathedFrom,
      Tree.children, Tree.get?, Tree.kind, visit] using hwhole
  · exact hwhole

/-! ## What templates see -/

/-- Names that no function takes are looked up behind the functions. -/
theorem get?_foldl_put_function {name : String} {functions : Store Function}
    (h : functions.get? name = none) : ∀ bindings : Store Binding,
    (functions.foldl (fun bindings (n, f) => bindings.put n (.function f)) bindings).get? name =
      bindings.get? name := by
  induction functions with
  | nil => intro bindings; rfl
  | cons e rest ih =>
    obtain ⟨n, f⟩ := e
    intro bindings
    by_cases hn : n = name
    · simp [Store.get?, hn] at h
    · rw [Store.get?, if_neg hn] at h
      rw [List.foldl_cons, ih h, Store.get?_put_of_ne hn]

/-- A name that no function takes stands for a function in no environment. -/
theorem hasFunction_export {ns : Namespace} {name : String} (h : ns.function? name = none) :
    ns.export.hasFunction name = false := by
  have hlookup : ns.export.lookup name =
      Store.get? name (ns.globals.map fun e => (e.1, Binding.value e.2)) :=
    get?_foldl_put_function h _
  unfold Environment.hasFunction
  rw [hlookup]
  induction ns.globals with
  | nil => rfl
  | cons e rest ih =>
    obtain ⟨n, v⟩ := e
    by_cases hn : n = name
    · simp [Store.get?, hn]
    · simpa [Store.get?, hn] using ih

/-- Templates see the tree as it was before the walk, unless a function takes its name. -/
theorem lookup_document {ns : Namespace} (he : options.exposeDocument = true)
    (hf : ns.function? documentName = none) (root : Tree) :
    (environment ns options root).lookup documentName = some (.value (.document ⟨0, root⟩)) := by
  rw [environment, if_pos he, Environment.insertGlobal, hasFunction_export hf]
  exact Store.get?_put_self _ _ _

/-- **The walk, by places.** When every template gives a rendering, the walk ends without an error
and with the one tree that is filled to its end. Otherwise it ends with the error of the first
template that gives none, and with the one tree that is filled up to that place. All templates are
evaluated in the same environment, which shows them the tree as it was. -/
theorem fill_eq_filled (ns : Namespace) (options : Options) (root : Tree) :
    (Succeeds options (environment ns options root) root.kinds root.kinds.length →
      ∃ final, fill ns options root = (final, none) ∧
        ∀ t, Filled options (environment ns options root) root root.kinds.length t ↔ t = final) ∧
    (¬ Succeeds options (environment ns options root) root.kinds root.kinds.length →
      ∃ j i fence expression e final, IsTemplate options root.kinds j i fence expression ∧
        evaluate expression (environment ns options root) = .error e ∧
        Succeeds options (environment ns options root) root.kinds i ∧
        fill ns options root = (final, some e) ∧
        ∀ t, Filled options (environment ns options root) root i t ↔ t = final) ∧
    (options.exposeDocument = true → ns.function? documentName = none →
      (environment ns options root).lookup documentName =
        some (.value (.document ⟨0, root⟩))) := by
  have hends := fill_ends ns options root
  have honly : ∀ {n final}, Filled options (environment ns options root) root n final →
      ∀ t, Filled options (environment ns options root) root n t ↔ t = final := by
    intro n final hfinal t
    exact ⟨fun ht => ht.unique hfinal, fun heq => heq ▸ hfinal⟩
  generalize fill ns options root = result at hends ⊢
  obtain ⟨final, outcome⟩ := result
  refine ⟨?_, ?_, fun he hf => lookup_document he hf root⟩
  · intro hok
    cases outcome with
    | none => exact ⟨final, rfl, honly hends.2⟩
    | some e =>
      obtain ⟨j, i, fence, expression, htemplate, he, _, _⟩ := hends
      have hi := (List.getElem?_eq_some_iff.mp htemplate.text_at).1
      obtain ⟨r, hr⟩ := hok j i fence expression htemplate hi
      rw [he] at hr
      exact absurd hr (by simp)
  · intro hfail
    cases outcome with
    | none => exact absurd hends.1 hfail
    | some e =>
      obtain ⟨j, i, fence, expression, htemplate, he, hok, hfilled⟩ := hends
      exact ⟨j, i, fence, expression, e, final, htemplate, he, hok, rfl, honly hfilled⟩

end LiveDoc.Template
