import LiveDoc.Proofs.Expr.Mentions
import LiveDoc.Proofs.Namespace.Session
import LiveDoc.Proofs.Template.Walk

/-!
# What templates do not see

A template depends on the names that it mentions and on nothing else of its environment. So the walk
over a tree depends on the names that its templates mention: what stands under any other name may
come and go, the document that is shown to templates included.

* `fill_congr` — walks in which every template evaluates to the same have the same outcome;
* `lookup_environment` and `lookup_run` — what exposing the document and what registrations change
  of an environment;
* `outcome_of_mentioned` — the consequences for expressions, for the exposed document, and for
  further functions and globals.
-/

namespace LiveDoc

/-! ## Environments -/

/-- The name that an operation gives something to in the namespace. -/
def Operation.target? : Operation → Option String
  | register f => some f.name
  | registerAs name _ => some name
  | addGlobal name _ => some name
  | «export» | insertGlobal .. => none

namespace Store

variable {α : Type}

/-- Under another name, a store holds after `put` what it held before. -/
theorem filter_put_of_ne {name other : String} (h : name ≠ other) (value : α) (s : Store α) :
    (put name value s).filter (·.1 = other) = s.filter (·.1 = other) := by
  induction s with
  | nil => simp [put, h]
  | cons e rest ih =>
    obtain ⟨n, v⟩ := e
    by_cases hn : n = name
    · have hne : n ≠ other := hn ▸ h
      simp [put, hn, h]
    · simp [put, hn, List.filter_cons, ih]

/-- What is put on top of a store is found under a name by the entries of that name alone. -/
theorem get?_foldl_put_filter {β : Type} (g : α → β) (name : String) (top : Store α) :
    ∀ s : Store β, get? name (top.foldl (fun s (n, v) => s.put n (g v)) s) =
      (((top.filter (·.1 = name)).getLast?).map fun e => g e.2).or (get? name s) := by
  induction top with
  | nil => intro s; rfl
  | cons e rest ih =>
    obtain ⟨n, v⟩ := e
    intro s
    rw [List.foldl_cons, ih]
    by_cases hn : n = name
    · subst hn
      rw [get?_put_self, List.filter_cons_of_pos (by simp), List.getLast?_cons]
      cases (rest.filter (·.1 = n)).getLast? <;> rfl
    · rw [get?_put_of_ne hn, List.filter_cons_of_neg (by simpa using hn)]

end Store

namespace Namespace

variable {ns ns' : Namespace} {name : String}

/-- What a namespace exports under a name depends on what it holds under that name. -/
theorem lookup_export_congr
    (hfunctions : ns.functions.filter (·.1 = name) = ns'.functions.filter (·.1 = name))
    (hglobals : ns.globals.get? name = ns'.globals.get? name) :
    ns.export.lookup name = ns'.export.lookup name := by
  have hlookup : ∀ n : Namespace, n.export.lookup name = _ := fun n =>
    Store.get?_foldl_put_filter Binding.function name n.functions _
  rw [hlookup, hlookup, hfunctions, Store.get?_map, Store.get?_map, hglobals]

theorem lookup_export_addGlobal {other : String} (h : other ≠ name) (value : Value) :
    (ns.addGlobal other value).export.lookup name = ns.export.lookup name :=
  lookup_export_congr rfl (Store.get?_put_of_ne h value ns.globals)

theorem lookup_export_registerAs {other : String} {f : Function} (h : other ≠ name)
    (hok : ns.registerAs other f = .ok ns') : ns'.export.lookup name = ns.export.lookup name := by
  unfold registerAs at hok
  split at hok
  · cases hok
  · cases hok
    exact lookup_export_congr (Store.filter_put_of_ne h _ _) rfl

end Namespace

namespace Session

/-- An operation changes nothing of the namespace but what stands under its own name. -/
theorem lookup_step (s : Session) (op : Operation) {name : String}
    (h : op.target? ≠ some name) :
    (s.step op).1.names.export.lookup name = s.names.export.lookup name := by
  have hregistered : ∀ (other : String) (f : Function), other ≠ name →
      (s.registered (s.names.registerAs other f)).1.names.export.lookup name =
        s.names.export.lookup name := by
    intro other f hne
    cases hok : s.names.registerAs other f with
    | error e => rfl
    | ok names => exact Namespace.lookup_export_registerAs hne hok
  cases op with
  | register f => exact hregistered f.name f fun heq => h (congrArg some heq)
  | registerAs other f => exact hregistered other f fun heq => h (congrArg some heq)
  | addGlobal other value =>
    exact Namespace.lookup_export_addGlobal (fun heq => h (congrArg some heq)) value
  | «export» => rfl
  | insertGlobal k other value => rfl

/-- **Operations leave a name alone that none of them is about.** -/
theorem lookup_run {ops : List Operation} {name : String} :
    ∀ s : Session, (∀ op ∈ ops, op.target? ≠ some name) →
      (s.run ops).names.export.lookup name = s.names.export.lookup name := by
  induction ops with
  | nil => intro s _; rfl
  | cons op rest ih =>
    intro s h
    obtain ⟨hop, hrest⟩ := List.forall_mem_cons.mp h
    calc ((s.step op).1.run rest).names.export.lookup name
        = (s.step op).1.names.export.lookup name := ih _ hrest
      _ = s.names.export.lookup name := lookup_step s op hop

end Session

namespace Template

variable {options options' : Options} {env env' : Environment} {root t : Tree}
  {ns ns' : Namespace}

/-- What a name stands for in the environment of templates. -/
theorem lookup_environment (ns : Namespace) (options : Options) (root : Tree) (name : String) :
    (environment ns options root).lookup name =
      if options.exposeDocument = true ∧ documentName = name ∧
          ns.export.hasFunction documentName = false then some (.value (.document ⟨0, root⟩))
      else ns.export.lookup name := by
  unfold environment
  by_cases hexposed : options.exposeDocument = true
  · rw [if_pos hexposed, Environment.lookup_insertGlobal]
    simp [hexposed]
  · rw [if_neg hexposed, if_neg (fun h => hexposed h.1)]

/-- What templates see under a name depends on what the namespace exports under that name. -/
theorem lookup_environment_congr {name : String}
    (hexpose : options.exposeDocument = options'.exposeDocument)
    (h : ns.export.lookup name = ns'.export.lookup name) :
    (environment ns options root).lookup name = (environment ns' options' root).lookup name := by
  rw [lookup_environment, lookup_environment, hexpose, h]
  by_cases hname : documentName = name
  · rw [Environment.hasFunction, Environment.hasFunction, hname, h]
  · rw [if_neg (fun hand => hname hand.2.1), if_neg (fun hand => hname hand.2.1)]

/-- Whether the document is exposed can be seen under one name only. -/
theorem lookup_environment_of_ne (ns : Namespace) (root : Tree) {name : String}
    (h : name ≠ documentName) :
    (environment ns options root).lookup name = (environment ns options' root).lookup name := by
  rw [lookup_environment, lookup_environment, if_neg (fun hand => h hand.2.1.symm),
    if_neg (fun hand => h hand.2.1.symm)]

/-! ## Walks with the same evaluations -/

/-- A walk ends in one way. -/
theorem Ends.unique {out out' : Tree × Option Error} (h : Ends options env root out)
    (h' : Ends options env root out') : out = out' := by
  have hfirst : ∀ {i i' j fence expression e}, IsTemplate options root.kinds j i fence expression →
      evaluate expression env = .error e → Succeeds options env root.kinds i' → ¬ i < i' := by
    intro i i' j fence expression e ht he hok hlt
    obtain ⟨r, hr⟩ := hok j i fence expression ht hlt
    rw [he] at hr
    cases hr
  obtain ⟨final, outcome⟩ := out
  obtain ⟨final', outcome'⟩ := out'
  cases outcome with
  | none =>
    cases outcome' with
    | none => rw [h.2.unique h'.2]
    | some e' =>
      obtain ⟨j, i, fence, expression, ht, he, -, -⟩ := h'
      exact absurd (List.getElem?_eq_some_iff.mp ht.text_at).1 (hfirst ht he h.1)
  | some e =>
    obtain ⟨j, i, fence, expression, ht, he, hok, hfilled⟩ := h
    cases outcome' with
    | none => exact absurd (List.getElem?_eq_some_iff.mp ht.text_at).1 (hfirst ht he h'.1)
    | some e' =>
      obtain ⟨j', i', fence', expression', ht', he', hok', hfilled'⟩ := h'
      -- neither of the two fails before the other
      have hi : i = i' := Nat.le_antisymm (Nat.le_of_not_lt (hfirst ht' he' hok))
        (Nat.le_of_not_lt (hfirst ht he hok'))
      subst hi
      obtain ⟨-, -, rfl⟩ := ht.unique ht'
      rw [hfilled.unique hfilled', Except.error.inj (he.symm.trans he')]

/-- Which fences are templates depends on the tag. -/
theorem IsTemplate.congr (htag : options.tag = options'.tag) {kinds : List Tree.Kind} {j i : Nat}
    {fence : Fence} {expression : String} (h : IsTemplate options kinds j i fence expression) :
    IsTemplate options' kinds j i fence expression := by
  obtain ⟨⟨hbefore, hfence, haccepted, hlast, htextless⟩, htext, hblank⟩ := h
  have haccepts : options'.accepts fence = options.accepts fence := by
    rw [Options.accepts, Options.accepts, htag]
  exact ⟨⟨hbefore, hfence, haccepts.trans haccepted, hlast, htextless⟩, htext, hblank⟩

/-- Every template of a tree evaluates to the same in two environments. -/
def SameValues (options : Options) (env env' : Environment) (root : Tree) : Prop :=
  ∀ j i fence expression, IsTemplate options root.kinds j i fence expression →
    evaluate expression env = evaluate expression env'

theorem SameValues.gives_iff (h : SameValues options env env' root)
    (htag : options.tag = options'.tag) {stop j i : Nat} {fence : Fence} {r : Rendering} :
    Gives options env root.kinds stop j i fence r ↔
      Gives options' env' root.kinds stop j i fence r := by
  constructor
  · rintro ⟨expression, ht, hi, he⟩
    exact ⟨expression, ht.congr htag, hi, h j i fence expression ht ▸ he⟩
  · rintro ⟨expression, ht, hi, he⟩
    have ht' := ht.congr htag.symm
    exact ⟨expression, ht', hi, (h j i fence expression ht').trans he⟩

theorem SameValues.filled (h : SameValues options env env' root) (htag : options.tag = options'.tag)
    {stop : Nat} (hfilled : Filled options env root stop t) :
    Filled options' env' root stop t where
  skeleton := hfilled.skeleton
  text hg := hfilled.text ((h.gives_iff htag).mpr hg)
  language hg := hfilled.language ((h.gives_iff htag).mpr hg)
  rest m htext hfence := hfilled.rest m
    (fun j fence r hg => htext j fence r ((h.gives_iff htag).mp hg))
    (fun i fence r hg => hfence i fence r ((h.gives_iff htag).mp hg))

theorem SameValues.succeeds (h : SameValues options env env' root)
    (htag : options.tag = options'.tag) {stop : Nat}
    (hok : Succeeds options env root.kinds stop) : Succeeds options' env' root.kinds stop := by
  intro j i fence expression ht hi
  have ht' := ht.congr htag.symm
  rw [← h j i fence expression ht']
  exact hok j i fence expression ht' hi

theorem SameValues.ends (h : SameValues options env env' root) (htag : options.tag = options'.tag)
    {out : Tree × Option Error} (hends : Ends options env root out) :
    Ends options' env' root out := by
  obtain ⟨final, _ | e⟩ := out
  · exact ⟨h.succeeds htag hends.1, h.filled htag hends.2⟩
  · obtain ⟨j, i, fence, expression, ht, he, hok, hfilled⟩ := hends
    exact ⟨j, i, fence, expression, ht.congr htag,
      (h j i fence expression ht).symm.trans he, h.succeeds htag hok, h.filled htag hfilled⟩

/-- **Walks with the same evaluations have the same outcome**: the same tree and the same error. -/
theorem fill_congr (htag : options.tag = options'.tag)
    (h : SameValues options (environment ns options root) (environment ns' options' root) root) :
    fill ns options root = fill ns' options' root :=
  (h.ends htag (fill_ends ns options root)).unique (fill_ends ns' options' root)

/-! ## Names that are mentioned -/

/-- A template of a tree looks a name up: the name stands there on its own or is called. -/
def Mentions (options : Options) (root : Tree) (name : String) : Prop :=
  ∃ j i fence expression e, IsTemplate options root.kinds j i fence expression ∧
    Expr.parse expression = .ok e ∧ name ∈ e.names

/-- A template gives the same when its expression does. -/
theorem evaluate_congr {expression : String}
    (h : ∀ e, Expr.parse expression = .ok e → e.eval env = e.eval env') :
    evaluate expression env = evaluate expression env' := by
  have hvalue : Expr.evaluate expression env = Expr.evaluate expression env' := by
    unfold Expr.evaluate
    cases hparse : Expr.parse expression with
    | error e => rfl
    | ok e => exact h e hparse
  unfold evaluate
  rw [hvalue]

/-- Environments that agree on what the templates of a tree mention let them evaluate to the
same. -/
theorem sameValues_of_mentions
    (h : ∀ name, Mentions options root name → env.lookup name = env'.lookup name) :
    SameValues options env env' root := by
  intro j i fence expression ht
  apply evaluate_congr
  intro e hparse
  apply Expr.eval_congr_names
  intro n hn
  exact h n ⟨j, i, fence, expression, e, ht, hparse, hn⟩

/-- **Evaluation depends on the names that are mentioned, and on nothing else.** An expression has
the same value or the same error in environments that agree on its bare names and callees. So the
outcome of a walk, which is a tree and maybe an error, is the same whether the document is exposed
or not when no template mentions its name, whatever the namespace holds under it; and it stays the
same when operations give further functions and globals to names that no template mentions. -/
theorem outcome_of_mentioned :
    (∀ (e : Expr) (env env' : Environment), (∀ n ∈ e.names, env.lookup n = env'.lookup n) →
      e.eval env = e.eval env') ∧
    (∀ (ns : Namespace) (tag : Option String) (root : Tree),
      ¬ Mentions ⟨tag, true⟩ root documentName →
        fill ns ⟨tag, true⟩ root = fill ns ⟨tag, false⟩ root) ∧
    (∀ (s : Session) (ops : List Operation) (options : Options) (root : Tree),
      (∀ op ∈ ops, ∀ name ∈ op.target?, ¬ Mentions options root name) →
        fill (s.run ops).names options root = fill s.names options root) := by
  refine ⟨fun e env env' => Expr.eval_congr_names e, ?_, ?_⟩
  · intro ns tag root hunmentioned
    refine fill_congr rfl (sameValues_of_mentions fun name hname => ?_)
    exact lookup_environment_of_ne ns root fun heq => hunmentioned (heq ▸ hname)
  · intro s ops options root hunmentioned
    refine fill_congr rfl (sameValues_of_mentions fun name hname => ?_)
    apply lookup_environment_congr rfl
    exact s.lookup_run fun op hop htarget => hunmentioned op hop name htarget hname

end Template

end LiveDoc
