import LiveDoc.Expr.Eval

/-!
# Evaluations that are cut off

An evaluation runs commands through the functions that it calls. Some of the commands fail. One
evaluation takes that as it comes, and another one ends there with an error: it is the first one,
cut off at the first command that fails.

* `evalM` — evaluation with any way to call functions; with one that keeps a log of commands it says
  which commands are run, and in which order;
* `CutsOff` — a run with a log, what it gives, and what the run gives that is cut off;
* **step** — this is kept when one run goes on with another (`CutsOff.bind`);
* **run** — an expression is cut off as the functions are that it calls (`cutsOff_eval`).
-/

namespace LiveDoc

variable {α β : Type} {failure? : String → Option Error}

/-- A run that keeps a log of commands. -/
abbrev Logged (α : Type) := ExceptT Error (StateM (List String)) α

/-- An outcome, unless a command fails. Then it is the error of the first one that does. -/
def cutOff (failure? : String → Option Error) (commands : List String) (outcome : Except Error α) :
    Except Error α :=
  match commands.findSome? failure? with
  | some e => .error e
  | none => outcome

/-- A run with a log gives `lenient`, and `strict` is what comes of it when it ends with the first
command that fails. -/
def CutsOff (failure? : String → Option Error) (run : Logged α) (lenient strict : Except Error α) :
    Prop :=
  ∀ log, ∃ commands, run.run.run log = (lenient, log ++ commands) ∧
    strict = cutOff failure? commands lenient

/-- What runs no command is not cut off. -/
theorem CutsOff.lift (outcome : Except Error α) :
    CutsOff failure? (liftM outcome) outcome outcome :=
  fun log => ⟨[], by rw [List.append_nil]; rfl, rfl⟩

theorem CutsOff.pure (a : α) : CutsOff failure? (pure a) (.ok a) (.ok a) := CutsOff.lift (.ok a)

/-- **One run after another.** When the first one is cut off, the second one does not start. -/
theorem CutsOff.bind {run : Logged α} {lenient strict : Except Error α} {next : α → Logged β}
    {lenientNext strictNext : α → Except Error β} (h : CutsOff failure? run lenient strict)
    (hnext : ∀ a, CutsOff failure? (next a) (lenientNext a) (strictNext a)) :
    CutsOff failure? (run >>= next) (lenient >>= lenientNext) (strict >>= strictNext) := by
  intro log
  obtain ⟨commands, hrun, hstrict⟩ := h log
  have hbind : (run >>= next).run.run log =
      (ExceptT.bindCont next (run.run.run log).1).run (run.run.run log).2 := rfl
  rw [hbind, hrun]
  cases lenient with
  | error e =>
    refine ⟨commands, rfl, ?_⟩
    rw [hstrict, cutOff, cutOff]
    cases commands.findSome? failure? <;> rfl
  | ok a =>
    obtain ⟨more, hmore, hstrictMore⟩ := hnext a (log ++ commands)
    refine ⟨commands ++ more, ?_, ?_⟩
    · rw [← List.append_assoc]
      exact hmore
    · rw [hstrict, cutOff, cutOff, List.findSome?_append]
      cases commands.findSome? failure? with
      | some e => rfl
      | none => exact hstrictMore

namespace Expr

/-! ## Evaluation with another way to call functions -/

section

variable {m : Type → Type} [Monad m]
  (call : Function → List Value → List (String × Value) → ExceptT Error m Value) (env : Environment)

mutual

/-- The value of an expression. -/
def evalM : Expr → ExceptT Error m Value
  | literal v => pure v
  | name n => liftM (evalName env n)
  | .call f positional keywords => do
    let function ← liftM (callee env f)
    let vs ← evalPositionalM positional
    let kvs ← evalKeywordsM keywords
    call function vs kvs

/-- The values of positional arguments, from left to right. -/
def evalPositionalM : List Expr → ExceptT Error m (List Value)
  | [] => pure []
  | e :: rest => do
    let v ← evalM e
    let vs ← evalPositionalM rest
    return v :: vs

/-- The values of keyword arguments, from left to right. -/
def evalKeywordsM : List (String × Expr) → ExceptT Error m (List (String × Value))
  | [] => pure []
  | (key, e) :: rest => do
    let v ← evalM e
    let kvs ← evalKeywordsM rest
    return (key, v) :: kvs

end

/-- The value of a source. -/
def evaluateM (source : String) : ExceptT Error m Value := do
  let e ← liftM (parse source)
  evalM call env e

end

/-! ## Evaluations as sequences of steps -/

theorem eval_call (env : Environment) (f : String) (positional : List Expr)
    (keywords : List (String × Expr)) :
    eval env (.call f positional keywords) = callee env f >>= fun function =>
      evalPositional env positional >>= fun vs =>
        evalKeywords env keywords >>= fun kvs => function.call vs kvs := by
  rw [eval]
  cases callee env f with
  | error e => rfl
  | ok function =>
    cases evalPositional env positional with
    | error e => rfl
    | ok vs => cases evalKeywords env keywords <;> rfl

theorem evalPositional_cons (env : Environment) (e : Expr) (rest : List Expr) :
    evalPositional env (e :: rest) = eval env e >>= fun v =>
      evalPositional env rest >>= fun vs => pure (v :: vs) := by
  rw [evalPositional]
  cases eval env e with
  | error fault => rfl
  | ok v => cases evalPositional env rest <;> rfl

theorem evalKeywords_cons (env : Environment) (key : String) (e : Expr)
    (rest : List (String × Expr)) :
    evalKeywords env ((key, e) :: rest) = eval env e >>= fun v =>
      evalKeywords env rest >>= fun kvs => pure ((key, v) :: kvs) := by
  rw [evalKeywords]
  cases eval env e with
  | error fault => rfl
  | ok v => cases evalKeywords env rest <;> rfl

theorem evaluate_eq (source : String) (env : Environment) :
    evaluate source env = parse source >>= fun e => eval env e := by
  rw [evaluate]
  cases parse source <;> rfl

/-! ## Expressions are cut off -/

section

variable {call : Function → List Value → List (String × Value) → Logged Value}
  {env env' : Environment}

/-- Calls of one function are those of another one, cut off. -/
def CallCutsOff (failure? : String → Option Error)
    (call : Function → List Value → List (String × Value) → Logged Value) (f f' : Function) :
    Prop :=
  ∀ vs kvs, CutsOff failure? (call f vs kvs) (f.call vs kvs) (f'.call vs kvs)

/-- A name stands for the same value, or for a function whose calls are cut off. -/
inductive BindingCutsOff (failure? : String → Option Error)
    (call : Function → List Value → List (String × Value) → Logged Value) : Binding → Binding → Prop
  | value (v : Value) : BindingCutsOff failure? call (.value v) (.value v)
  | function {f f' : Function} (h : CallCutsOff failure? call f f') :
      BindingCutsOff failure? call (.function f) (.function f')

/-- The names of two environments stand for the same, up to calls that are cut off. -/
def EnvironmentCutsOff (failure? : String → Option Error)
    (call : Function → List Value → List (String × Value) → Logged Value) (env env' : Environment) :
    Prop :=
  ∀ name, Option.Rel (BindingCutsOff failure? call) (env.lookup name) (env'.lookup name)

theorem EnvironmentCutsOff.evalName (h : EnvironmentCutsOff failure? call env env')
    (name : String) :
    evalName env name = evalName env' name := by
  unfold Expr.evalName
  have hname := h name
  generalize env.lookup name = b at hname
  generalize env'.lookup name = b' at hname
  rcases hname with @⟨b, b', hbinding⟩ | _
  · cases hbinding <;> rfl
  · rfl

/-- A function is called in both environments, or in none. -/
theorem EnvironmentCutsOff.callee (h : EnvironmentCutsOff failure? call env env') (name : String) :
    (∃ e, callee env name = .error e ∧ callee env' name = .error e) ∨
      ∃ f f', callee env name = .ok f ∧ callee env' name = .ok f' ∧
        CallCutsOff failure? call f f' := by
  unfold Expr.callee
  have hname := h name
  generalize env.lookup name = b at hname
  generalize env'.lookup name = b' at hname
  rcases hname with @⟨b, b', hbinding⟩ | _
  · cases hbinding with
    | value v => exact .inl ⟨_, rfl, rfl⟩
    | function hcall => exact .inr ⟨_, _, rfl, rfl, hcall⟩
  · exact .inl ⟨_, rfl, rfl⟩

mutual

/-- **An expression is cut off** as the functions are that it calls. -/
theorem cutsOff_eval (h : EnvironmentCutsOff failure? call env env') : ∀ e : Expr,
    CutsOff failure? (evalM call env e) (eval env e) (eval env' e)
  | literal v => by
    rw [evalM, eval, eval]
    exact CutsOff.pure v
  | name n => by
    rw [evalM, eval, eval, ← h.evalName n]
    exact CutsOff.lift _
  | .call f positional keywords => by
    rw [evalM, eval_call, eval_call]
    rcases h.callee f with ⟨e, he, he'⟩ | ⟨function, function', hf, hf', hcall⟩
    · rw [he, he']
      exact CutsOff.lift (.error e)
    · rw [hf, hf']
      exact (cutsOff_evalPositional h positional).bind fun vs =>
        (cutsOff_evalKeywords h keywords).bind fun kvs => hcall vs kvs

theorem cutsOff_evalPositional (h : EnvironmentCutsOff failure? call env env') : ∀ es : List Expr,
    CutsOff failure? (evalPositionalM call env es) (evalPositional env es) (evalPositional env' es)
  | [] => by
    rw [evalPositionalM, evalPositional, evalPositional]
    exact CutsOff.pure []
  | e :: rest => by
    rw [evalPositionalM, evalPositional_cons, evalPositional_cons]
    exact (cutsOff_eval h e).bind fun v => (cutsOff_evalPositional h rest).bind fun vs =>
      CutsOff.pure _

theorem cutsOff_evalKeywords (h : EnvironmentCutsOff failure? call env env') :
    ∀ es : List (String × Expr),
    CutsOff failure? (evalKeywordsM call env es) (evalKeywords env es) (evalKeywords env' es)
  | [] => by
    rw [evalKeywordsM, evalKeywords, evalKeywords]
    exact CutsOff.pure []
  | (key, e) :: rest => by
    rw [evalKeywordsM, evalKeywords_cons, evalKeywords_cons]
    exact (cutsOff_eval h e).bind fun v => (cutsOff_evalKeywords h rest).bind fun kvs =>
      CutsOff.pure _

end

theorem cutsOff_evaluate (h : EnvironmentCutsOff failure? call env env') (source : String) :
    CutsOff failure? (evaluateM call env source) (evaluate source env) (evaluate source env') := by
  rw [evaluateM, evaluate_eq, evaluate_eq]
  exact (CutsOff.lift (parse source)).bind fun e => cutsOff_eval h e

end

end Expr

end LiveDoc
