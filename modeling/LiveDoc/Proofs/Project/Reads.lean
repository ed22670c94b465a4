import LiveDoc.Project
import LiveDoc.Proofs.Files.Writing
import LiveDoc.Proofs.Namespace.Binding
import LiveDoc.Proofs.Template.FenceByFence
import LiveDoc.Proofs.Template.Isolation

/-!
# What the rendering of a text reads

A project looks at files in one way only: a template that shows source code names a reference, and
the module of the reference is looked for, path by path, up to the first file. The reference is a
text that is written in the template, since no function gives a text and no global is one.

* `FileTree.probes` — the paths that are looked at when the first file among some is looked for;
* `Config.reads` — the paths that the rendering of a text looks at;
* `Project.render_congr` — files that are the same at these paths give the same rendering, or the
  same error.
-/

namespace LiveDoc

/-! ## Looking for the first file -/

namespace FileTree

variable {files after : FileTree}

/-- The paths that are looked at when the first file among some paths is looked for. -/
def probes (isFile : String → Bool) : List String → List String
  | [] => []
  | path :: rest => if isFile path then [path] else path :: probes isFile rest

/-- The files at some paths are the same in two trees. -/
def AgreeOn (paths : List String) (files after : FileTree) : Prop :=
  ∀ path ∈ paths, after.bytes? path = files.bytes? path

theorem AgreeOn.mono {paths more : List String} (h : AgreeOn more files after)
    (hsubset : ∀ path ∈ paths, path ∈ more) : AgreeOn paths files after :=
  fun path hpath => h path (hsubset path hpath)

theorem mem_probes_of_find? {isFile : String → Bool} {path : String} {paths : List String}
    (h : paths.find? isFile = some path) : path ∈ probes isFile paths := by
  induction paths with
  | nil => cases h
  | cons first rest ih =>
    rw [List.find?_cons] at h
    rw [probes]
    cases hfirst : isFile first with
    | true =>
      rw [hfirst] at h
      cases h
      exact List.mem_singleton_self _
    | false =>
      rw [hfirst] at h
      exact List.mem_cons_of_mem first (ih h)

/-- The first file is found by looking at these paths alone. -/
theorem find?_congr {paths : List String} (h : AgreeOn (probes files.isFile paths) files after) :
    paths.find? after.isFile = paths.find? files.isFile := by
  induction paths with
  | nil => rfl
  | cons first rest ih =>
    rw [probes] at h
    rw [List.find?_cons, List.find?_cons]
    cases hfirst : files.isFile first with
    | true =>
      rw [hfirst, if_pos rfl] at h
      rw [isFile_congr (h first List.mem_cons_self), hfirst]
    | false =>
      rw [hfirst, if_neg Bool.false_ne_true] at h
      rw [isFile_congr (h first List.mem_cons_self), hfirst]
      exact ih (h.mono fun path hpath => List.mem_cons_of_mem first hpath)

end FileTree

namespace Roots

/-- The paths that are looked at for the source of a reference. A text that is no reference is not
looked for. -/
def reads (roots : Roots) (files : FileTree) (reference : String) : List String :=
  match Reference.parse reference with
  | .ok r => FileTree.probes files.isFile (roots.attempts r)
  | .error _ => []

/-- The source of a reference depends on the files at these paths alone. -/
theorem extract_congr {roots : Roots} {files after : FileTree} {reference : String}
    (h : FileTree.AgreeOn (roots.reads files reference) files after) (declarationOnly : Bool) :
    roots.extract after reference declarationOnly =
      roots.extract files reference declarationOnly := by
  unfold extract
  unfold reads at h
  cases hparse : Reference.parse reference with
  | error e => rfl
  | ok r =>
    rw [hparse] at h
    dsimp only at h ⊢
    unfold resolve
    rw [FileTree.find?_congr h]
    cases hfind : (roots.attempts r).find? files.isFile with
    | none => rfl
    | some path =>
      dsimp only
      rw [FileTree.readText_congr (h path (FileTree.mem_probes_of_find? hfind))]

end Roots

/-! ## Texts in templates -/

namespace Expr

/-- The text that an expression is. -/
def quoted? : Expr → Option String
  | literal (.string s) => some s
  | _ => none

/-- The references that a call asks for source by. They are written in the call, as its first
argument or under the name of the first parameter. -/
def Call.references (c : Call) : List String :=
  if c.function = "show_source_code" then
    (c.positional.head?.toList ++
      (c.keywords.filter (·.1 = "import_path")).map (·.2)).filterMap quoted?
  else []

/-- The references that the calls in an expression ask for source by. -/
def references (e : Expr) : List String := e.calls.flatMap Call.references

/-- No name stands for a text, and no function gives one. -/
structure Textless (env : Environment) : Prop where
  value : ∀ {n v}, env.lookup n = some (.value v) → v.string? = none
  function : ∀ {n f}, env.lookup n = some (.function f) → ∀ {args v}, f.meaning args = .ok v →
    v.string? = none

variable {env : Environment}

/-- The value of a positional argument is that of the expression at its place. -/
theorem head?_of_evalPositional {es : List Expr} {vs : List Value} {v : Value}
    (h : evalPositional env es = .ok vs) (hv : vs[0]? = some v) :
    ∃ e, es.head? = some e ∧ eval env e = .ok v := by
  cases es with
  | nil =>
    cases h
    cases hv
  | cons e rest =>
    rw [evalPositional] at h
    cases he : eval env e with
    | error fault => simp [he] at h
    | ok w =>
      simp only [he] at h
      cases hrest : evalPositional env rest with
      | error fault => simp [hrest] at h
      | ok ws =>
        simp only [hrest, Except.ok.injEq] at h
        subst h
        cases hv
        exact ⟨e, rfl, he⟩

/-- The value of a keyword argument is that of an expression behind the same name. -/
theorem mem_of_evalKeywords {es : List (String × Expr)} : ∀ {kvs : List (String × Value)}
    {key : String} {v : Value}, evalKeywords env es = .ok kvs → (key, v) ∈ kvs →
      ∃ e, (key, e) ∈ es ∧ eval env e = .ok v := by
  induction es with
  | nil =>
    intro kvs key v h hmem
    cases h
    cases hmem
  | cons entry rest ih =>
    obtain ⟨name, e⟩ := entry
    intro kvs key v h hmem
    rw [evalKeywords] at h
    cases he : eval env e with
    | error fault => simp [he] at h
    | ok w =>
      simp only [he] at h
      cases hrest : evalKeywords env rest with
      | error fault => simp [hrest] at h
      | ok ws =>
        simp only [hrest, Except.ok.injEq] at h
        subst h
        rcases List.mem_cons.mp hmem with heq | hmem
        · obtain ⟨rfl, rfl⟩ := Prod.mk.inj heq
          exact ⟨e, List.mem_cons_self, he⟩
        · obtain ⟨e', hmem', he'⟩ := ih hrest hmem
          exact ⟨e', List.mem_cons_of_mem _ hmem', he'⟩

/-- What evaluates to a text is a text that is written down. -/
theorem quoted?_of_eval (henv : Textless env) {e : Expr} {s : String}
    (h : eval env e = .ok (.string s)) : e.quoted? = some s := by
  cases e with
  | literal v =>
    cases h
    rfl
  | name n =>
    rw [eval, evalName] at h
    split at h
    · next v hv =>
      cases h
      cases henv.value hv
    · cases h
    · cases h
  | call f positional keywords =>
    rw [eval, callee] at h
    cases hlookup : env.lookup f with
    | none => simp [hlookup] at h
    | some binding =>
      cases binding with
      | value v => simp [hlookup] at h
      | function g =>
        simp only [hlookup] at h
        split at h
        · cases h
        · split at h
          · cases h
          · unfold Function.call at h
            split at h
            · next args _ => cases henv.function hlookup h
            · cases h

end Expr

/-! ## The templates of trees that were read -/

namespace Tree

mutual

/-- Behind the place of a node come the nodes below it. -/
theorem preorder_drop : ∀ (t : Tree) {j : Nat} {n : Tree}, t.preorder[j]? = some n →
    ∃ rest, t.preorder.drop j = n.preorder ++ rest
  | mk k s cs, j, n, h => by
    cases j with
    | zero =>
      rw [preorder] at h
      cases h
      exact ⟨[], (List.append_nil _).symm⟩
    | succ j =>
      rw [preorder] at h ⊢
      exact preorderList_drop cs h

theorem preorderList_drop : ∀ (ts : List Tree) {j : Nat} {n : Tree},
    (preorderList ts)[j]? = some n → ∃ rest, (preorderList ts).drop j = n.preorder ++ rest
  | [], j, n, h => by
    rw [preorderList] at h
    cases h
  | t :: ts, j, n, h => by
    rw [preorderList] at h ⊢
    rcases Nat.lt_or_ge j t.preorder.length with hlt | hge
    · rw [List.getElem?_append_left hlt] at h
      obtain ⟨rest, hrest⟩ := preorder_drop t h
      exact ⟨rest ++ preorderList ts, by
        rw [List.drop_append_of_le_length (Nat.le_of_lt hlt), hrest, List.append_assoc]⟩
    · rw [List.getElem?_append_right hge] at h
      obtain ⟨rest, hrest⟩ := preorderList_drop ts h
      exact ⟨rest, by rw [List.drop_append, List.drop_eq_nil_of_le hge, List.nil_append, hrest]⟩

end

/-- The body of a fence that was read is the next node. -/
theorem AsRead.kinds_succ {t : Tree} (h : t.AsRead) {j : Nat} {fence : Fence}
    (hj : t.kinds[j]? = some (.fence fence)) :
    ∃ s, t.preorder[j]? = some (mk (.fence fence) s [leaf fence.parsedBody none]) ∧
      t.kinds[j + 1]? = some (.text fence.parsedBody) := by
  rw [kinds, List.getElem?_map] at hj
  obtain ⟨n, hn, hkind⟩ := Option.map_eq_some_iff.mp hj
  obtain ⟨k, s, cs⟩ := n
  obtain rfl : k = .fence fence := hkind
  obtain ⟨-, hchildren⟩ := h _ (List.mem_of_getElem? hn) fence rfl
  obtain rfl : cs = [leaf fence.parsedBody none] := hchildren
  obtain ⟨rest, hrest⟩ := preorder_drop t hn
  refine ⟨s, hn, ?_⟩
  rw [kinds, List.getElem?_map, ← List.getElem?_drop, hrest]
  rfl

end Tree

namespace Template

/-- In a tree that was read, every template is the body of a fence. -/
theorem IsTemplate.mem_expressions {options : Options} {t : Tree} (hread : t.AsRead) {j i : Nat}
    {fence : Fence} {expression : String}
    (h : IsTemplate options t.kinds j i fence expression) : expression ∈ expressions options t := by
  obtain ⟨s, hnode, hbody⟩ := hread.kinds_succ h.waiting.fence_at
  -- no text stands between the fence and its body, so the text is the body
  have hi : i = j + 1 := by
    rcases Nat.lt_or_ge (j + 1) i with hlt | hge
    · exact absurd hbody (h.waiting.textless (j + 1) (Nat.lt_succ_self j) hlt _)
    · exact Nat.le_antisymm hge h.waiting.before
  subst hi
  have hexpression := h.text_at
  rw [hbody, Option.some.injEq, Tree.Kind.text.injEq] at hexpression
  subst hexpression
  rw [expressions_eq]
  refine List.mem_filterMap.mpr ⟨_, List.mem_of_getElem? hnode, ?_⟩
  have hbody' : (Tree.mk (.fence fence) s [Tree.leaf fence.parsedBody none]).body? =
      some fence.parsedBody := rfl
  simp [expression?, hbody', Tree.fence?, Tree.kind, h.waiting.accepted, h.notBlank]

end Template

/-! ## The functions of a project -/

namespace Config

/-- The paths that the rendering of a text looks at: the modules of the references in its
templates. -/
def reads (c : Config) (files : FileTree) (source : String) : List String :=
  (Template.expressions c.template (Document.ofMarkdown source).root).flatMap fun expression =>
    match Expr.parse expression with
    | .ok e => e.references.flatMap (c.roots.reads files)
    | .error _ => []

end Config

namespace Project

open LiveDoc.Expr (Textless SameCall)

variable {p : Project} {options : Template.Options} {root : Tree}

theorem exists_of_bind_eq_ok {α β : Type} {x : Except Error α} {next : α → Except Error β} {b : β}
    (h : (x >>= next) = .ok b) : ∃ a, x = .ok a ∧ next a = .ok b := by
  cases x with
  | error e => cases h
  | ok a => exact ⟨a, rfl, h⟩

/-- Every function of a project gives renderings. -/
theorem string?_of_meaning {f : Function} (hf : f ∈ p.functions) {args : Arguments} {v : Value}
    (h : f.meaning args = .ok v) : v.string? = none := by
  simp only [functions, List.mem_cons, List.not_mem_nil, or_false] at hf
  rcases hf with rfl | rfl | rfl
  · obtain ⟨command, -, h⟩ := exists_of_bind_eq_ok h
    obtain ⟨output, -, h⟩ := exists_of_bind_eq_ok h
    cases h
    rfl
  · obtain ⟨command, -, h⟩ := exists_of_bind_eq_ok h
    obtain ⟨output, -, h⟩ := exists_of_bind_eq_ok h
    cases h
    rfl
  · obtain ⟨reference, -, h⟩ := exists_of_bind_eq_ok h
    obtain ⟨declarationOnly, -, h⟩ := exists_of_bind_eq_ok h
    obtain ⟨source, -, h⟩ := exists_of_bind_eq_ok h
    obtain ⟨language, -, h⟩ := exists_of_bind_eq_ok h
    cases h
    rfl

/-- What a project exports are its functions. -/
theorem mem_functions_of_lookup {name : String} {b : Binding}
    (h : p.namespace.export.lookup name = some b) : ∃ f ∈ p.functions, b = .function f := by
  have hnodup : p.namespace.functions.names.Nodup :=
    (by decide : ["show_command_output", "show_help_menu", "show_source_code"].Nodup)
  rw [Namespace.lookup_export hnodup] at h
  cases hfunction : p.namespace.function? name with
  | none =>
    rw [hfunction] at h
    cases h
  | some f =>
    rw [hfunction] at h
    cases h
    refine ⟨f, ?_, rfl⟩
    unfold Namespace.function? at hfunction
    simp only [«namespace», functions, List.map_cons, List.map_nil, Store.get?] at hfunction
    rw [functions]
    split at hfunction
    · cases hfunction
      simp
    · split at hfunction
      · cases hfunction
        simp
      · split at hfunction
        · cases hfunction
          simp
        · cases hfunction

/-- Templates of a project see no texts but those that are written in them. -/
theorem textless_environment (p : Project) (options : Template.Options) (root : Tree) :
    Textless (Template.environment p.namespace options root) := by
  refine ⟨fun {n v} h => ?_, fun {n f} h args v hv => ?_⟩
  · rw [Template.lookup_environment] at h
    split at h
    · cases h
      rfl
    · obtain ⟨f, -, hf⟩ := mem_functions_of_lookup h
      cases hf
  · rw [Template.lookup_environment] at h
    split at h
    · cases h
    · obtain ⟨g, hg, heq⟩ := mem_functions_of_lookup h
      cases heq
      exact string?_of_meaning hg hv

/-! ## Other files -/

section

variable {after : FileTree}

/-- The files matter to one function only. -/
theorem lookup_environment_of_ne {name : String} (h : name ≠ "show_source_code") :
    (Template.environment p.namespace options root).lookup name =
      (Template.environment ({ p with files := after } : Project).namespace options root).lookup
        name := by
  have hne : ¬ "show_source_code" = name := fun heq => h heq.symm
  have hfunctions : p.namespace.functions.filter (·.1 = name) =
      ({ p with files := after } : Project).namespace.functions.filter (·.1 = name) := by
    simp [«namespace», functions, List.filter_cons, showSourceCode, hne, runner, showCommandOutput,
      showHelpMenu]
  exact Template.lookup_environment_congr rfl (Namespace.lookup_export_congr hfunctions rfl)

theorem lookup_showSourceCode (p : Project) (options : Template.Options) (root : Tree) :
    (Template.environment p.namespace options root).lookup "show_source_code" =
      some (.function (showSourceCode p.config.roots p.files)) := by
  rw [Template.lookup_environment, if_neg (fun h => absurd h.2.1 (by decide))]
  rfl

/-- A bare name means the same, whatever the files are. -/
theorem evalName_environment (p : Project) (after : FileTree) (name : String) :
    Expr.evalName (Template.environment p.namespace options root) name =
      Expr.evalName (Template.environment ({ p with files := after } : Project).namespace options
        root) name := by
  by_cases hname : name = "show_source_code"
  · rw [hname, Expr.evalName, Expr.evalName, lookup_showSourceCode, lookup_showSourceCode]
  · exact Expr.evalName_congr (lookup_environment_of_ne hname)

/-- A text that is read from arguments was bound to the parameter. -/
theorem get?_of_string {args : Arguments} {name s : String} (h : args.string name = .ok s) :
    args.values.get? name = some (.string s) := by
  unfold Arguments.string Arguments.valueAs Arguments.value at h
  cases hv : args.values.get? name with
  | none => simp [hv] at h
  | some v =>
    simp only [hv] at h
    cases v <;> simp_all [Value.string?]

/-- Source is asked for by a reference that is written in the call, as its first argument or under
its name. -/
theorem mem_references {env : Environment} (henv : Textless env) {c : Expr.Call}
    (hc : c.function = "show_source_code") {roots : Roots} {files : FileTree} {vs : List Value}
    {kvs : List (String × Value)} {args : Arguments} {reference : String}
    (hvs : Expr.evalPositional env c.positional = .ok vs)
    (hkvs : Expr.evalKeywords env c.keywords = .ok kvs)
    (hargs : (showSourceCode roots files).bind vs kvs = .ok args)
    (hreference : args.string "import_path" = .ok reference) : reference ∈ c.references := by
  obtain ⟨i, q, hq, hname, hsource⟩ := Function.source_of_bind hargs (get?_of_string hreference)
  -- the first parameter is the only one of this name, and it has no default
  have hfirst : i = 0 ∧ q.default = none := by
    rcases i with _ | _ | _ | i
    · cases hq
      exact ⟨rfl, rfl⟩
    · cases hq
      exact absurd hname (by decide)
    · cases hq
      exact absurd hname (by decide)
    · cases hq
  obtain ⟨rfl, hdefault⟩ := hfirst
  rw [Expr.Call.references, if_pos hc, List.mem_filterMap]
  rcases hsource with hpositional | hkeyword | hnone
  · obtain ⟨e, he, hvalue⟩ := Expr.head?_of_evalPositional hvs hpositional
    refine ⟨e, List.mem_append_left _ ?_, Expr.quoted?_of_eval henv hvalue⟩
    rw [he]
    exact List.mem_singleton_self e
  · obtain ⟨e, he, hvalue⟩ := Expr.mem_of_evalKeywords hkvs hkeyword
    refine ⟨e, List.mem_append_right _ ?_, Expr.quoted?_of_eval henv hvalue⟩
    exact List.mem_map.mpr ⟨_, List.mem_filter.mpr ⟨he, by simp⟩, rfl⟩
  · rw [hdefault] at hnone
    cases hnone

/-- A call that shows source code reads the modules of its own references only. -/
theorem sameCall_showSourceCode {c : Expr.Call} (hc : c.function = "show_source_code")
    (h : ∀ r ∈ c.references, FileTree.AgreeOn (p.config.roots.reads p.files r) p.files after) :
    SameCall (Template.environment p.namespace options root)
      (Template.environment ({ p with files := after } : Project).namespace options root) c := by
  have hcallee : ∀ q : Project, Expr.callee (Template.environment q.namespace options root)
      c.function = .ok (showSourceCode q.config.roots q.files) := by
    intro q
    rw [Expr.callee, hc, lookup_showSourceCode]
  refine .gives (hcallee p) (hcallee { p with files := after }) ?_
  intro vs kvs hvs hkvs
  have hbind : (showSourceCode p.config.roots after).bind vs kvs =
      (showSourceCode p.config.roots p.files).bind vs kvs := rfl
  unfold Function.call
  rw [hbind]
  cases hargs : (showSourceCode p.config.roots p.files).bind vs kvs with
  | error e => rfl
  | ok args =>
    dsimp only [showSourceCode]
    cases hreference : args.string "import_path" with
    | error e => rfl
    | ok reference =>
      have hmem : reference ∈ c.references :=
        mem_references (textless_environment p options root) hc hvs hkvs hargs hreference
      cases args.bool "declaration_only" with
      | error e => rfl
      | ok declarationOnly =>
        have hextract := Roots.extract_congr (h reference hmem) declarationOnly
        simp only [bind, Except.bind]
        rw [hextract]

/-- **A rendering depends on the files that it reads**: when they are the same, the rendering is the
same, or fails with the same error. -/
theorem render_congr (p : Project) (source : String)
    (h : FileTree.AgreeOn (p.config.reads p.files source) p.files after) :
    ({ p with files := after } : Project).render source = p.render source := by
  have hread : (Document.ofMarkdown source).root.AsRead := Tree.asRead_ofNode _ _
  have hfill : Template.fill p.namespace p.config.template (Document.ofMarkdown source).root =
      Template.fill ({ p with files := after } : Project).namespace p.config.template
        (Document.ofMarkdown source).root := by
    apply Template.fill_congr rfl
    intro j i fence expression ht
    apply Template.evaluate_congr
    intro e hparse
    -- what the template reads is among what the rendering reads
    have hagree : ∀ r ∈ e.references,
        FileTree.AgreeOn (p.config.roots.reads p.files r) p.files after := by
      intro r hr
      refine h.mono fun path hpath => ?_
      refine List.mem_flatMap.mpr ⟨expression, ht.mem_expressions hread, ?_⟩
      rw [hparse]
      exact List.mem_flatMap.mpr ⟨r, hr, hpath⟩
    apply Expr.eval_congr
    · exact fun n _ => evalName_environment p after n
    · intro c hc
      by_cases hname : c.function = "show_source_code"
      · exact sameCall_showSourceCode hname fun r hr =>
          hagree r (List.mem_flatMap.mpr ⟨c, hc, hr⟩)
      · exact Expr.sameCall_of_lookup (lookup_environment_of_ne hname)
  unfold render Document.renderMarkdown Document.fill
  rw [← hfill]

end

end Project

end LiveDoc
