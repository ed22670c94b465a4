import Mathlib.Data.String.Basic
import Mathlib.Data.List.Induction
import LiveDoc.Namespace

/-!
# A namespace over a whole session

A session does operations on one namespace and on the environments that it exports, in any order.
What it holds in the end is told by the operations alone: of the registrations of a name the first
one counts, of the globals the last one, and an environment is what the namespace was when it was
exported, with its own globals on top.

* `lookup_export` — functions hide globals in an environment;
* `Holds.step` — what one operation preserves;
* `session_law` — what holds after any operations.
-/

namespace LiveDoc

/-! ## Stores and exports -/

namespace Store

variable {α : Type}

theorem get?_eq_none_iff {name : String} {s : Store α} : s.get? name = none ↔ name ∉ s.names := by
  induction s with
  | nil => simp [get?, names]
  | cons e rest ih =>
    obtain ⟨n, v⟩ := e
    by_cases hn : n = name
    · simp [get?, names, hn]
    · have hne : name ≠ n := Ne.symm hn
      simpa [get?, names, hn, hne] using ih

theorem mem_names_put {name other : String} {value : α} {s : Store α} :
    other ∈ (s.put name value).names ↔ other = name ∨ other ∈ s.names := by
  induction s with
  | nil => simp [put, names]
  | cons e rest ih =>
    obtain ⟨n, v⟩ := e
    by_cases hn : n = name
    · simp [put, names, hn]
    · have hput : (put name value ((n, v) :: rest)).names = n :: (put name value rest).names := by
        simp [put, names, hn]
      have hcons : names ((n, v) :: rest) = n :: names rest := rfl
      rw [hput, hcons, List.mem_cons, List.mem_cons, ih]
      exact or_left_comm

/-- No name comes twice. -/
theorem nodup_names_put {s : Store α} (h : s.names.Nodup) (name : String) (value : α) :
    (s.put name value).names.Nodup := by
  induction s with
  | nil => simp [put, names]
  | cons e rest ih =>
    obtain ⟨n, v⟩ := e
    have hcons : names ((n, v) :: rest) = n :: names rest := rfl
    rw [hcons, List.nodup_cons] at h
    by_cases hn : n = name
    · have hput : (put name value ((n, v) :: rest)).names = n :: names rest := by
        simp [put, names, hn]
      rw [hput]
      exact List.nodup_cons.mpr h
    · have hput : (put name value ((n, v) :: rest)).names = n :: (put name value rest).names := by
        simp [put, names, hn]
      rw [hput, List.nodup_cons]
      refine ⟨?_, ih h.2⟩
      rw [mem_names_put]
      exact not_or.mpr ⟨hn, h.1⟩

theorem mem_sortedNames {name : String} {s : Store α} : name ∈ s.sortedNames ↔ name ∈ s.names :=
  (List.mergeSort_perm _ _).mem_iff

/-- Sorted names ascend, so no name comes twice among them. -/
theorem pairwise_sortedNames {s : Store α} (h : s.names.Nodup) :
    s.sortedNames.Pairwise (· < ·) := by
  have hle : s.sortedNames.Pairwise fun a b => decide (a ≤ b) = true := by
    apply List.pairwise_mergeSort
    · intro a b c hab hbc
      exact decide_eq_true (le_trans (of_decide_eq_true hab) (of_decide_eq_true hbc))
    · intro a b
      simpa using le_total a b
  have hne : s.sortedNames.Pairwise (· ≠ ·) := (List.mergeSort_perm _ _).nodup_iff.mpr h
  refine hle.imp₂ ?_ hne
  intro a b hab hab'
  exact lt_of_le_of_ne (of_decide_eq_true hab) hab'

theorem get?_map {β : Type} (g : α → β) (name : String) (s : Store α) :
    get? name (s.map fun (n, v) => (n, g v)) = (s.get? name).map g := by
  induction s with
  | nil => rfl
  | cons e rest ih =>
    obtain ⟨n, v⟩ := e
    by_cases hn : n = name
    · simp [get?, hn]
    · simpa [get?, hn] using ih

/-- What is put on top of a store is found first. -/
theorem get?_foldl_put {β : Type} (g : α → β) {name : String} {top : Store α}
    (h : top.names.Nodup) (s : Store β) :
    get? name (top.foldl (fun s (n, v) => s.put n (g v)) s) =
      ((top.get? name).map g).or (s.get? name) := by
  induction top generalizing s with
  | nil => rfl
  | cons e rest ih =>
    obtain ⟨n, v⟩ := e
    have hcons : names ((n, v) :: rest) = n :: names rest := rfl
    rw [hcons, List.nodup_cons] at h
    rw [List.foldl_cons, ih h.2]
    by_cases hn : n = name
    · subst hn
      have hrest : get? n rest = none := get?_eq_none_iff.mpr h.1
      simp [get?, hrest]
    · rw [get?_put_of_ne hn]
      simp [get?, hn]

end Store

namespace Namespace

/-- Functions hide globals. -/
theorem lookup_export {ns : Namespace} (h : ns.functions.names.Nodup) (name : String) :
    ns.export.lookup name =
      ((ns.function? name).map Binding.function).or ((ns.globals.get? name).map Binding.value) := by
  have hlookup : ns.export.lookup name = _ := Store.get?_foldl_put Binding.function h _
  rw [hlookup, Store.get?_map]
  rfl

/-- A registration fails exactly when the name is taken by a function. -/
theorem registerAs_eq (ns : Namespace) (name : String) (f : Function) :
    ns.registerAs name f = match ns.function? name with
      | some _ => .error (.duplicateRegistration name)
      | none => .ok { ns with functions := ns.functions.put name { f with name := name } } := by
  unfold registerAs
  cases ns.function? name <;> rfl

end Namespace

/-- A global goes into an environment unless a function has its name. -/
theorem Environment.lookup_insertGlobal (env : Environment) (name other : String) (value : Value) :
    (env.insertGlobal name value).lookup other =
      if name = other ∧ env.hasFunction name = false then some (.value value)
      else env.lookup other := by
  unfold insertGlobal
  by_cases hfunction : env.hasFunction name = true
  · rw [if_pos hfunction, if_neg]
    simp [hfunction]
  · rw [if_neg hfunction]
    by_cases hname : name = other
    · subst hname
      rw [if_pos ⟨rfl, by simpa using hfunction⟩]
      exact Store.get?_put_self _ _ _
    · rw [if_neg (fun h => hname h.1)]
      exact Store.get?_put_of_ne hname _ _

/-! ## Sessions -/

/-- What can be done to a namespace and to the environments exported from it. Environments are
counted from zero in the order of their exports. -/
inductive Operation where
  | register (f : Function)
  | registerAs (name : String) (f : Function)
  | addGlobal (name : String) (value : Value)
  | «export»
  | insertGlobal (environment : Nat) (name : String) (value : Value)

namespace Operation

/-- What an operation registers, and under which name. -/
def registration? : Operation → Option (String × Function)
  | register f => some (f.name, f)
  | registerAs name f => some (name, f)
  | _ => none

/-- The value that an operation gives to a global of a namespace. -/
def global? (name : String) : Operation → Option Value
  | addGlobal n v => if n = name then some v else none
  | _ => none

/-- The value that an operation gives to a global of an environment. -/
def inserted? (environment : Nat) (name : String) : Operation → Option Value
  | insertGlobal k n v => if k = environment ∧ n = name then some v else none
  | _ => none

def isExport : Operation → Bool
  | «export» => true
  | _ => false

end Operation

/-- A namespace and the environments exported from it so far. -/
structure Session where
  names : Namespace
  environments : List Environment

namespace Session

/-- Nothing registered and nothing exported. -/
def empty : Session := ⟨.empty, []⟩

/-- The outcome of a registration: a failed one leaves the session as it is. -/
def registered (s : Session) : Except Error Namespace → Session × Option Error
  | .ok names => ({ s with names }, none)
  | .error e => (s, some e)

/-- One operation, with the error that it reports if it fails. -/
def step (s : Session) : Operation → Session × Option Error
  | .register f => s.registered (s.names.register f)
  | .registerAs name f => s.registered (s.names.registerAs name f)
  | .addGlobal name value => ({ s with names := s.names.addGlobal name value }, none)
  | .export => ({ s with environments := s.environments ++ [s.names.export] }, none)
  | .insertGlobal k name value =>
    ({ s with environments := s.environments.modify k (·.insertGlobal name value) }, none)

/-- Operations one after the other. A failed one does not stop the session. -/
def run (s : Session) (ops : List Operation) : Session := ops.foldl (fun s op => (s.step op).1) s

/-- The registrations among operations that succeed, in their order. -/
def granted (s : Session) : List Operation → List (String × Function)
  | [] => []
  | op :: rest =>
    (if (s.step op).2.isNone then op.registration?.toList else []) ++ granted (s.step op).1 rest

end Session

/-! ## What the operations say -/

namespace Operation

/-- The function that was the first to be registered under a name with success. -/
def firstFunction? (name : String) (ops : List Operation) : Option Function :=
  ((Session.empty.granted ops).find? (·.1 = name)).map fun (n, f) => { f with name := n }

/-- The value that a global was given last. -/
def lastGlobal? (name : String) (ops : List Operation) : Option Value :=
  (ops.filterMap (global? name)).getLast?

/-- The value that a global of an environment was given last. -/
def lastInserted? (environment : Nat) (name : String) (ops : List Operation) : Option Value :=
  (ops.filterMap (inserted? environment name)).getLast?

/-- How many environments were exported. -/
def exports (ops : List Operation) : Nat := ops.countP isExport

/-- What a name stands for in the environment that was exported between two lists of operations. -/
def binding? (name : String) (before after : List Operation) : Option Binding :=
  match firstFunction? name before with
  | some f => some (.function f)
  | none => ((lastInserted? (exports before) name after).or (lastGlobal? name before)).map .value

theorem lastGlobal?_append (name : String) (ops : List Operation) (op : Operation) :
    lastGlobal? name (ops ++ [op]) = (op.global? name).or (lastGlobal? name ops) := by
  unfold lastGlobal?
  cases h : op.global? name <;> simp [h]

theorem lastInserted?_append (k : Nat) (name : String) (ops : List Operation) (op : Operation) :
    lastInserted? k name (ops ++ [op]) = (op.inserted? k name).or (lastInserted? k name ops) := by
  unfold lastInserted?
  cases h : op.inserted? k name <;> simp [h]

theorem exports_append (ops more : List Operation) :
    exports (ops ++ more) = exports ops + exports more := List.countP_append

end Operation

namespace Session

open Operation

theorem run_append (s : Session) (ops : List Operation) (op : Operation) :
    s.run (ops ++ [op]) = ((s.run ops).step op).1 := by
  rw [run, List.foldl_append]
  rfl

theorem granted_append (s : Session) (ops : List Operation) (op : Operation) :
    s.granted (ops ++ [op]) = s.granted ops ++
      if ((s.run ops).step op).2.isNone then op.registration?.toList else [] := by
  induction ops generalizing s with
  | nil => simp [granted, run]
  | cons first rest ih =>
    rw [List.cons_append, granted, ih, granted, List.append_assoc]
    rfl

/-- Both ways to register do the same. -/
theorem step_registration (s : Session) {op : Operation} {name : String} {f : Function}
    (h : op.registration? = some (name, f)) :
    s.step op = s.registered (s.names.registerAs name f) := by
  cases op with
  | register g =>
    obtain ⟨rfl, rfl⟩ := Prod.mk.inj (Option.some.inj h)
    rfl
  | registerAs n g =>
    obtain ⟨rfl, rfl⟩ := Prod.mk.inj (Option.some.inj h)
    rfl
  | addGlobal | «export» | insertGlobal => cases h

/-- Only an insertion changes an environment that was exported. -/
theorem environments_prefix_step (s : Session) {op : Operation}
    (h : ∀ k name value, op ≠ .insertGlobal k name value) :
    s.environments <+: (s.step op).1.environments := by
  have hregister : ∀ r, s.environments <+: (s.registered r).1.environments := by
    intro r
    cases r with
    | ok names => exact List.prefix_refl _
    | error e => exact List.prefix_refl _
  cases op with
  | register f => exact hregister _
  | registerAs name f => exact hregister _
  | addGlobal name value => exact List.prefix_refl _
  | «export» => exact List.prefix_append _ _
  | insertGlobal k name value => exact absurd rfl (h k name value)

/-- What a session holds after operations on an empty one. -/
structure Holds (ops : List Operation) (s : Session) : Prop where
  functions : ∀ name, s.names.function? name = firstFunction? name ops
  distinct : s.names.functions.names.Nodup
  globals : ∀ name, s.names.globals.get? name = lastGlobal? name ops
  length : s.environments.length = exports ops
  environments : ∀ before after, ops = before ++ .export :: after →
    ∃ env, s.environments[exports before]? = some env ∧
      ∀ name, env.lookup name = binding? name before after

theorem holds_empty : Holds [] empty where
  functions := fun _ => rfl
  distinct := List.nodup_nil
  globals := fun _ => rfl
  length := rfl
  environments := by
    intro before after h
    simp at h

/-- An export is the last operation, or it was there before the last operation. -/
theorem split_append {ops before after : List Operation} {op : Operation}
    (h : ops ++ [op] = before ++ .export :: after) :
    (after = [] ∧ op = .export ∧ ops = before) ∨
      ∃ more, after = more ++ [op] ∧ ops = before ++ .export :: more := by
  rcases List.eq_nil_or_concat after with rfl | ⟨more, last, rfl⟩
  · obtain ⟨hops, hop⟩ := List.append_inj' h rfl
    exact Or.inl ⟨rfl, List.head_eq_of_cons_eq hop, hops⟩
  · rw [List.concat_eq_append, ← List.cons_append, ← List.append_assoc] at h
    obtain ⟨hops, hop⟩ := List.append_inj' h rfl
    obtain rfl : op = last := List.head_eq_of_cons_eq hop
    exact Or.inr ⟨more, List.concat_eq_append, hops⟩

theorem binding?_append {op : Operation} {name : String} {before : List Operation}
    (h : op.inserted? (exports before) name = none) (after : List Operation) :
    binding? name before (after ++ [op]) = binding? name before after := by
  unfold binding?
  rw [lastInserted?_append, h, Option.none_or]

/-- The environments that were there stay what they are, unless something is inserted. -/
theorem Holds.environments_of_prefix {ops : List Operation} {s next : Session} (h : Holds ops s)
    {op : Operation} (hkept : s.environments <+: next.environments)
    (hinsert : ∀ k name, op.inserted? k name = none) {before more : List Operation}
    (hops : ops = before ++ .export :: more) :
    ∃ env, next.environments[exports before]? = some env ∧
      ∀ name, env.lookup name = binding? name before (more ++ [op]) := by
  obtain ⟨env, henv, hlookup⟩ := h.environments before more hops
  obtain ⟨added, hadded⟩ := hkept
  have hlt : exports before < s.environments.length := (List.getElem?_eq_some_iff.mp henv).1
  refine ⟨env, ?_, ?_⟩
  · rw [← hadded, List.getElem?_append_left hlt, henv]
  intro name
  rw [hlookup, binding?_append (hinsert _ _)]

section Step

variable {ops : List Operation}

theorem firstFunction?_append (name : String) (op : Operation) :
    firstFunction? name (ops ++ [op]) = (firstFunction? name ops).or
      (((if ((empty.run ops).step op).2.isNone then op.registration?.toList else []).find?
        (·.1 = name)).map fun (n, f) => { f with name := n }) := by
  unfold firstFunction?
  rw [granted_append, List.find?_append, Option.map_or]

/-- Registrations leave exports and globals alone. -/
theorem of_registration? {op : Operation} {name : String} {f : Function}
    (h : op.registration? = some (name, f)) :
    op.isExport = false ∧ (∀ x, op.global? x = none) ∧ ∀ k x, op.inserted? k x = none := by
  cases op with
  | register | registerAs => exact ⟨rfl, fun _ => rfl, fun _ _ => rfl⟩
  | addGlobal | «export» | insertGlobal => cases h

theorem exports_append_of_not {op : Operation} (h : op.isExport = false) :
    exports (ops ++ [op]) = exports ops := by
  rw [exports_append]
  simp [exports, h]

/-- The first registration of a name counts, and a later one changes nothing. -/
theorem Holds.registration (h : Holds ops (empty.run ops)) {op : Operation} {name : String}
    {f : Function} (hop : op.registration? = some (name, f)) :
    Holds (ops ++ [op]) ((empty.run ops).step op).1 := by
  obtain ⟨hexport, hglobal, hinsert⟩ := of_registration? hop
  have hfirst : ∀ x, firstFunction? x (ops ++ [op]) = _ := fun x => firstFunction?_append x op
  rw [hop] at hfirst
  have hkept : (empty.run ops).environments <+: ((empty.run ops).step op).1.environments := by
    apply environments_prefix_step
    rintro k n v rfl
    cases hop
  have henvironments : ∀ before after, ops ++ [op] = before ++ .export :: after →
      ∃ env, ((empty.run ops).step op).1.environments[exports before]? = some env ∧
        ∀ x, env.lookup x = binding? x before after := by
    intro before after hsplit
    rcases split_append hsplit with ⟨-, rfl, -⟩ | ⟨more, rfl, hops⟩
    · cases hop
    · exact h.environments_of_prefix hkept hinsert hops
  have hglobals : ∀ x, (empty.run ops).names.globals.get? x = lastGlobal? x (ops ++ [op]) := by
    intro x
    rw [lastGlobal?_append, hglobal, Option.none_or, h.globals]
  have hlength : (empty.run ops).environments.length = exports (ops ++ [op]) := by
    rw [exports_append_of_not hexport, h.length]
  have hstep := step_registration (empty.run ops) hop
  rw [Namespace.registerAs_eq] at hstep
  rw [hstep] at hfirst henvironments ⊢
  cases hfunction : (empty.run ops).names.function? name with
  | some g =>
    rw [hfunction] at hfirst henvironments
    refine ⟨?_, h.distinct, hglobals, hlength, henvironments⟩
    intro x
    rw [hfirst, ← h.functions x]
    exact (Option.or_none).symm
  | none =>
    rw [hfunction] at hfirst henvironments
    refine ⟨?_, Store.nodup_names_put h.distinct name _, hglobals, hlength, henvironments⟩
    intro x
    rw [hfirst, ← h.functions x]
    by_cases hx : name = x
    · subst hx
      rw [hfunction]
      simp [registered, Namespace.function?]
    · have hput : Store.get? x ((empty.run ops).names.functions.put name { f with name := name }) =
          (empty.run ops).names.functions.get? x := Store.get?_put_of_ne hx _ _
      simpa [registered, Namespace.function?, hx] using hput

/-- An operation that registers nothing leaves the functions alone. -/
theorem Holds.functions_append (h : Holds ops (empty.run ops)) {op : Operation}
    (hop : op.registration? = none) (name : String) :
    (empty.run ops).names.function? name = firstFunction? name (ops ++ [op]) := by
  rw [firstFunction?_append, hop, h.functions]
  simp

/-- The last value of a global counts. -/
theorem Holds.addGlobal (h : Holds ops (empty.run ops)) (name : String) (value : Value) :
    Holds (ops ++ [.addGlobal name value])
      ((empty.run ops).step (.addGlobal name value)).1 where
  functions := h.functions_append rfl
  distinct := h.distinct
  globals := by
    intro x
    have hput : ((empty.run ops).step (.addGlobal name value)).1.names.globals =
        (empty.run ops).names.globals.put name value := rfl
    rw [hput, lastGlobal?_append]
    by_cases hx : name = x
    · subst hx
      rw [Store.get?_put_self]
      simp [global?]
    · rw [Store.get?_put_of_ne hx, h.globals]
      simp [global?, hx]
  length := by
    rw [exports_append_of_not rfl]
    exact h.length
  environments := by
    intro before after hsplit
    rcases split_append hsplit with ⟨-, hop, -⟩ | ⟨more, rfl, hops⟩
    · cases hop
    · exact h.environments_of_prefix (List.prefix_refl _) (fun _ _ => rfl) hops

/-- A new environment shows what the namespace holds, and the others stay. -/
theorem Holds.export (h : Holds ops (empty.run ops)) :
    Holds (ops ++ [.export]) ((empty.run ops).step .export).1 where
  functions := h.functions_append rfl
  distinct := h.distinct
  globals := by
    intro x
    rw [lastGlobal?_append]
    exact h.globals x
  length := by
    have hexports : exports [.export] = 1 := rfl
    rw [exports_append, hexports, ← h.length]
    exact List.length_append
  environments := by
    intro before after hsplit
    rcases split_append hsplit with ⟨rfl, -, rfl⟩ | ⟨more, rfl, hops⟩
    · refine ⟨(empty.run ops).names.export, ?_, ?_⟩
      · rw [← h.length]
        exact List.getElem?_concat_length
      · intro x
        rw [Namespace.lookup_export h.distinct, h.functions, h.globals]
        unfold binding?
        cases firstFunction? x ops <;> rfl
    · exact h.environments_of_prefix (List.prefix_append _ _) (fun _ _ => rfl) hops

/-- Functions stay what they are in an environment, whatever is inserted. -/
theorem hasFunction_eq {env : Environment} {name : String} {before after : List Operation}
    (h : env.lookup name = binding? name before after) :
    env.hasFunction name = (firstFunction? name before).isSome := by
  unfold Environment.hasFunction
  rw [h, binding?]
  cases firstFunction? name before with
  | some f => rfl
  | none => cases (lastInserted? (exports before) name after).or (lastGlobal? name before) <;> rfl

/-- An inserted global is seen in its environment, unless a function hides it. -/
theorem lookup_insertGlobal {env : Environment} {before after : List Operation}
    (h : ∀ x, env.lookup x = binding? x before after) (name : String) (value : Value) (x : String) :
    (env.insertGlobal name value).lookup x =
      binding? x before (after ++ [.insertGlobal (exports before) name value]) := by
  rw [Environment.lookup_insertGlobal, hasFunction_eq (h name), h, binding?, binding?,
    lastInserted?_append]
  by_cases hx : name = x
  · subst hx
    cases firstFunction? name before <;> simp [inserted?]
  · simp [inserted?, hx]

/-- A global inserted into one environment is not seen in another. -/
theorem Holds.insertGlobal (h : Holds ops (empty.run ops)) (k : Nat) (name : String)
    (value : Value) :
    Holds (ops ++ [.insertGlobal k name value])
      ((empty.run ops).step (.insertGlobal k name value)).1 where
  functions := h.functions_append rfl
  distinct := h.distinct
  globals := by
    intro x
    rw [lastGlobal?_append]
    exact h.globals x
  length := by
    rw [exports_append_of_not rfl, ← h.length]
    exact List.length_modify _ _ _
  environments := by
    intro before after hsplit
    rcases split_append hsplit with ⟨-, hop, -⟩ | ⟨more, rfl, hops⟩
    · cases hop
    · obtain ⟨env, henv, hlookup⟩ := h.environments before more hops
      have hmodify : ((empty.run ops).step (.insertGlobal k name value)).1.environments =
          (empty.run ops).environments.modify k (·.insertGlobal name value) := rfl
      rw [hmodify, List.getElem?_modify, henv]
      by_cases hk : k = exports before
      · subst hk
        exact ⟨env.insertGlobal name value, by simp, lookup_insertGlobal hlookup name value⟩
      · refine ⟨env, by simp [hk], ?_⟩
        intro x
        rw [hlookup, binding?_append]
        simp [inserted?, hk]

/-- **One operation preserves what a session holds.** -/
theorem Holds.step (h : Holds ops (empty.run ops)) (op : Operation) :
    Holds (ops ++ [op]) ((empty.run ops).step op).1 := by
  cases op with
  | register f => exact h.registration rfl
  | registerAs name f => exact h.registration rfl
  | addGlobal name value => exact h.addGlobal name value
  | «export» => exact h.export
  | insertGlobal k name value => exact h.insertGlobal k name value

end Step

theorem holds_run (ops : List Operation) : Holds ops (empty.run ops) := by
  induction ops using List.reverseRecOn with
  | nil => exact holds_empty
  | append_singleton ops op ih =>
    rw [run_append]
    exact ih.step op

/-! ## The law -/

/-- The first of the successful registrations of a name is one that succeeded, under this name. -/
theorem name_of_firstFunction? {name : String} {ops : List Operation} {f : Function}
    (h : firstFunction? name ops = some f) : f.name = name := by
  obtain ⟨⟨n, g⟩, hfind, rfl⟩ := Option.map_eq_some_iff.mp h
  simpa using List.find?_some hfind

/-- What is known of a session that has done operations on an empty namespace. -/
structure Law (ops : List Operation) (s : Session) : Prop where
  /-- A name stands in an environment for the function of its first successful registration before
  the export; else for the value that it was given last, in this environment or before the
  export. -/
  lookup : ∀ before after, ops = before ++ .export :: after →
    ∃ env, s.environments[exports before]? = some env ∧
      ∀ name, env.lookup name = binding? name before after
  /-- There are no other environments. -/
  length : s.environments.length = exports ops
  /-- A registration fails exactly when a function has the name, and then changes nothing. -/
  registration : ∀ op name f, op.registration? = some (name, f) →
    ((firstFunction? name ops).isSome → s.step op = (s, some (.duplicateRegistration name))) ∧
      (firstFunction? name ops = none → (s.step op).2 = none ∧
        (s.step op).1.names.function? name = some { f with name := name })
  /-- The functions of the namespace are those registered first, and each has the name that it is
  registered under. -/
  functions : ∀ name, s.names.function? name = firstFunction? name ops ∧
    ∀ f, s.names.function? name = some f → f.name = name
  /-- Inserting a global gives a value to its name in its environment unless the name stands for a
  function there. No other name, no other environment and not the namespace is affected. -/
  insertion : ∀ k name value, (s.step (.insertGlobal k name value)).1.names = s.names ∧
    ∀ j env, s.environments[j]? = some env →
      ∃ env', (s.step (.insertGlobal k name value)).1.environments[j]? = some env' ∧
        ∀ x, env'.lookup x =
          if j = k ∧ x = name ∧ env.hasFunction name = false then some (.value value)
          else env.lookup x
  /-- Nothing else changes an environment. -/
  snapshots : ∀ op, (∀ k name value, op ≠ .insertGlobal k name value) →
    s.environments <+: (s.step op).1.environments
  /-- A name is taken when a function or a global has it. -/
  contains : ∀ name, s.names.contains name =
    ((firstFunction? name ops).isSome || (lastGlobal? name ops).isSome)
  /-- The names of the functions ascend, each of them once. -/
  functionNames : s.names.functionNames.Pairwise (· < ·) ∧
    ∀ name, name ∈ s.names.functionNames ↔ (firstFunction? name ops).isSome

theorem Holds.registration_step {ops : List Operation} {s : Session} (h : Holds ops s)
    {op : Operation} {name : String} {f : Function} (hop : op.registration? = some (name, f)) :
    ((firstFunction? name ops).isSome → s.step op = (s, some (.duplicateRegistration name))) ∧
      (firstFunction? name ops = none → (s.step op).2 = none ∧
        (s.step op).1.names.function? name = some { f with name := name }) := by
  have hstep := step_registration s hop
  rw [Namespace.registerAs_eq, h.functions] at hstep
  rw [hstep]
  cases firstFunction? name ops with
  | some g =>
    refine ⟨fun _ => rfl, ?_⟩
    intro hnone
    cases hnone
  | none =>
    refine ⟨?_, fun _ => ⟨rfl, Store.get?_put_self _ _ _⟩⟩
    intro hsome
    cases hsome

theorem lookup_modify (s : Session) (k : Nat) (name : String) (value : Value) {j : Nat}
    {env : Environment} (h : s.environments[j]? = some env) :
    ∃ env', (s.step (.insertGlobal k name value)).1.environments[j]? = some env' ∧
      ∀ x, env'.lookup x =
        if j = k ∧ x = name ∧ env.hasFunction name = false then some (.value value)
        else env.lookup x := by
  have hmodify : (s.step (.insertGlobal k name value)).1.environments =
      s.environments.modify k (·.insertGlobal name value) := rfl
  rw [hmodify, List.getElem?_modify, h]
  by_cases hk : k = j
  · subst hk
    refine ⟨env.insertGlobal name value, by simp, ?_⟩
    intro x
    rw [Environment.lookup_insertGlobal]
    simp only [true_and, eq_comm (a := x)]
  · refine ⟨env, by simp [hk], ?_⟩
    intro x
    rw [if_neg]
    exact fun hj => hk hj.1.symm

/-- **The law of a session**, for every list of operations. -/
theorem session_law (ops : List Operation) : Law ops (empty.run ops) where
  lookup := (holds_run ops).environments
  length := (holds_run ops).length
  registration := fun _ _ _ hop => (holds_run ops).registration_step hop
  functions := by
    intro name
    refine ⟨(holds_run ops).functions name, ?_⟩
    intro f hf
    rw [(holds_run ops).functions] at hf
    exact name_of_firstFunction? hf
  insertion := fun k name value => ⟨rfl, fun _ _ henv => lookup_modify _ k name value henv⟩
  snapshots := fun _ hop => environments_prefix_step _ hop
  contains := by
    intro name
    have hfunction : (empty.run ops).names.functions.get? name = firstFunction? name ops :=
      (holds_run ops).functions name
    rw [Namespace.contains, hfunction, (holds_run ops).globals]
  functionNames := by
    refine ⟨Store.pairwise_sortedNames (holds_run ops).distinct, ?_⟩
    intro name
    rw [← (holds_run ops).functions]
    have hnone : (empty.run ops).names.function? name = none ↔
        name ∉ (empty.run ops).names.functions.names := Store.get?_eq_none_iff
    rw [Namespace.functionNames, Store.mem_sortedNames, Option.isSome_iff_ne_none]
    exact not_iff_not.mp (by rw [not_not]; exact hnone.symm)

end Session

end LiveDoc
