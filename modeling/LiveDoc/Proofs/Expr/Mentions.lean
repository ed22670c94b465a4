import LiveDoc.Expr.Eval

/-!
# What an expression mentions

An expression looks into its environment at the bare names and at the callees in it, and nowhere
else. The names of keywords are not looked up.

* `calls` and `bareNames` — all calls and all bare names in an expression, also those in arguments;
* `eval_congr` — two environments in which each of them means the same give the same outcome;
* `eval_congr_names` — in particular two environments that agree on the names that are mentioned.
-/

namespace LiveDoc.Expr

/-- A call in an expression: the callee, and the arguments as they are written. -/
structure Call where
  function : String
  positional : List Expr
  keywords : List (String × Expr)

mutual

/-- The calls in an expression, with those in arguments. -/
def calls : Expr → List Call
  | literal _ | name _ => []
  | call f positional keywords =>
    ⟨f, positional, keywords⟩ :: (callsOf positional ++ callsOfKeywords keywords)

/-- The calls in positional arguments. -/
def callsOf : List Expr → List Call
  | [] => []
  | e :: rest => e.calls ++ callsOf rest

/-- The calls in keyword arguments. -/
def callsOfKeywords : List (String × Expr) → List Call
  | [] => []
  | (_, e) :: rest => e.calls ++ callsOfKeywords rest

end

mutual

/-- The bare names in an expression, with those in arguments. -/
def bareNames : Expr → List String
  | literal _ => []
  | name n => [n]
  | call _ positional keywords => bareNamesOf positional ++ bareNamesOfKeywords keywords

/-- The bare names in positional arguments. -/
def bareNamesOf : List Expr → List String
  | [] => []
  | e :: rest => e.bareNames ++ bareNamesOf rest

/-- The bare names in keyword arguments. -/
def bareNamesOfKeywords : List (String × Expr) → List String
  | [] => []
  | (_, e) :: rest => e.bareNames ++ bareNamesOfKeywords rest

end

/-- The names that an expression looks up: bare names and callees. -/
def names (e : Expr) : List String := e.bareNames ++ e.calls.map Call.function

/-- A call means the same in two environments: its callee is no function in both, with the same
error, or the two functions do the same with the values that the arguments have. -/
inductive SameCall (env env' : Environment) (c : Call) : Prop
  | fails {e : Error} : callee env c.function = .error e → callee env' c.function = .error e →
      SameCall env env' c
  | gives {f f' : Function} : callee env c.function = .ok f → callee env' c.function = .ok f' →
      (∀ vs kvs, evalPositional env c.positional = .ok vs → evalKeywords env c.keywords = .ok kvs →
        f.call vs kvs = f'.call vs kvs) → SameCall env env' c

variable {env env' : Environment}

mutual

/-- Two environments in which every bare name and every call of an expression means the same give
the expression the same value or the same error. -/
theorem eval_congr : ∀ e : Expr, (∀ n ∈ e.bareNames, evalName env n = evalName env' n) →
    (∀ c ∈ e.calls, SameCall env env' c) → eval env e = eval env' e
  | literal _, _, _ => rfl
  | name n, hnames, _ => hnames n (by simp [bareNames])
  | call f positional keywords, hnames, hcalls => by
    rw [bareNames] at hnames
    rw [calls] at hcalls
    obtain ⟨hnames₁, hnames₂⟩ := List.forall_mem_append.mp hnames
    obtain ⟨hcall, hothers⟩ := List.forall_mem_cons.mp hcalls
    obtain ⟨hcalls₁, hcalls₂⟩ := List.forall_mem_append.mp hothers
    have hpositional := evalPositional_congr positional hnames₁ hcalls₁
    have hkeywords := evalKeywords_congr keywords hnames₂ hcalls₂
    rw [eval, eval, ← hpositional, ← hkeywords]
    cases hcall with
    | fails h h' => rw [h, h']
    | gives h h' hsame =>
      rw [h, h']
      dsimp only
      cases hvs : evalPositional env positional with
      | error e => rfl
      | ok vs =>
        dsimp only
        cases hkvs : evalKeywords env keywords with
        | error e => rfl
        | ok kvs => exact hsame vs kvs hvs hkvs

theorem evalPositional_congr : ∀ es : List Expr,
    (∀ n ∈ bareNamesOf es, evalName env n = evalName env' n) →
    (∀ c ∈ callsOf es, SameCall env env' c) → evalPositional env es = evalPositional env' es
  | [], _, _ => rfl
  | e :: rest, hnames, hcalls => by
    rw [bareNamesOf] at hnames
    rw [callsOf] at hcalls
    obtain ⟨hnames₁, hnames₂⟩ := List.forall_mem_append.mp hnames
    obtain ⟨hcalls₁, hcalls₂⟩ := List.forall_mem_append.mp hcalls
    rw [evalPositional, evalPositional, eval_congr e hnames₁ hcalls₁,
      evalPositional_congr rest hnames₂ hcalls₂]

theorem evalKeywords_congr : ∀ es : List (String × Expr),
    (∀ n ∈ bareNamesOfKeywords es, evalName env n = evalName env' n) →
    (∀ c ∈ callsOfKeywords es, SameCall env env' c) → evalKeywords env es = evalKeywords env' es
  | [], _, _ => rfl
  | (key, e) :: rest, hnames, hcalls => by
    rw [bareNamesOfKeywords] at hnames
    rw [callsOfKeywords] at hcalls
    obtain ⟨hnames₁, hnames₂⟩ := List.forall_mem_append.mp hnames
    obtain ⟨hcalls₁, hcalls₂⟩ := List.forall_mem_append.mp hcalls
    rw [evalKeywords, evalKeywords, eval_congr e hnames₁ hcalls₁,
      evalKeywords_congr rest hnames₂ hcalls₂]

end

/-- Names that are looked up with the same result mean the same. -/
theorem evalName_congr {n : String} (h : env.lookup n = env'.lookup n) :
    evalName env n = evalName env' n := by
  rw [evalName, evalName, h]

theorem sameCall_of_lookup {c : Call} (h : env.lookup c.function = env'.lookup c.function) :
    SameCall env env' c := by
  have hcallee : callee env c.function = callee env' c.function := by
    rw [callee, callee, h]
  cases hf : callee env c.function with
  | error e => exact .fails hf (hcallee ▸ hf)
  | ok f => exact .gives hf (hcallee ▸ hf) fun _ _ _ _ => rfl

/-- Environments that agree on the names that an expression looks up give the same outcome. -/
theorem eval_congr_names (e : Expr) (h : ∀ n ∈ e.names, env.lookup n = env'.lookup n) :
    eval env e = eval env' e := by
  obtain ⟨hnames, hcallees⟩ := List.forall_mem_append.mp h
  exact eval_congr e (fun n hn => evalName_congr (hnames n hn))
    (fun c hc => sameCall_of_lookup (hcallees c.function (List.mem_map_of_mem hc)))

end LiveDoc.Expr
