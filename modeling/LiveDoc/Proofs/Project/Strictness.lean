import Mathlib.Data.List.Forall2
import LiveDoc.Project
import LiveDoc.Proofs.Expr.CutOff
import LiveDoc.Proofs.Template.FenceByFence
import LiveDoc.Proofs.Template.Isolation

/-!
# Strict renderings

The functions of a project run commands. A strict project ends with an error when one of them fails,
where a lenient one goes on with what the command printed.

* `renderM` — rendering with any way to run commands; with one that keeps a log (`Runner.logged`) it
  tells which commands are run, in the order of the document and of the arguments;
* **command** — a strict runner gives what a lenient one gives, or fails (`cutsOff_run`);
* **call** — and so do the functions of a project (`environmentCutsOff`);
* **walk** — a strict walk over a tree is the lenient one, cut off at the first command that fails
  (`cutsOff_visit`);
* `render_strict` — and so is a strict rendering.
-/

namespace LiveDoc

/-! ## Commands -/

/-- The error that a strict runner makes of what came of a command. -/
def Outcome.failure? (command : String) : Outcome → Option Error
  | .notStarted => some .io
  | .finished status _ complaint =>
    if status = some 0 then none
    else some (.commandFailed command status (Text.trimmed (Runner.textOf complaint)))

namespace Outcome

variable {command : String} {outcome : Outcome}

theorem of_failure? {e : Error} (h : outcome.failure? command = some e) :
    outcome = .notStarted ∧ e = .io ∨
      ∃ status output complaint, outcome = .finished status output complaint ∧ status ≠ some 0 ∧
        e = .commandFailed command status (Text.trimmed (Runner.textOf complaint)) := by
  cases outcome with
  | notStarted =>
    cases h
    exact .inl ⟨rfl, rfl⟩
  | finished status output complaint =>
    simp only [failure?] at h
    split at h
    · cases h
    · next hstatus =>
      cases h
      exact .inr ⟨status, output, complaint, rfl, hstatus, rfl⟩

theorem succeeded_of_failure? (h : outcome.failure? command = none) : outcome.succeeded = true := by
  cases outcome with
  | notStarted => cases h
  | finished status output complaint =>
    simp only [failure?] at h
    split at h
    · next hstatus => rw [hstatus, succeeded]
    · cases h

end Outcome

namespace Runner

/-- The error that a command ends with when the runner is strict. -/
def failure? (r : Runner) (command : String) : Option Error :=
  (r.launch r.directory command).failure? command

/-- The runner that takes failures as they come. -/
def lenient (r : Runner) : Runner := { r with strict := false }

/-- The runner that reports failures. -/
def strictly (r : Runner) : Runner := { r with strict := true }

/-- Runs a command and keeps a log. -/
def logged (r : Runner) (command : String) : Logged String := do
  modify (· ++ [command])
  liftM (r.run command)

/-- A strict runner fails where a lenient one goes on with what was printed. -/
theorem cutsOff_run (r : Runner) (command : String) :
    CutsOff r.failure? (r.lenient.logged command) (r.lenient.run command)
      (r.strictly.run command) := by
  intro log
  refine ⟨[command], rfl, ?_⟩
  unfold cutOff run lenient strictly
  rw [List.findSome?_singleton, failure?]
  cases r.launch r.directory command with
  | notStarted => rfl
  | finished status output complaint =>
    by_cases hstatus : status = some 0
    · simp [Outcome.failure?, hstatus]
    · simp [Outcome.failure?, hstatus]

end Runner

/-! ## Templates with another way to call functions -/

namespace Template

section

variable {m : Type → Type} [Monad m]
  (call : Function → List Value → List (String × Value) → ExceptT Error m Value)

/-- Evaluates a template, which must give a rendering. -/
def evaluateM (expression : String) (env : Environment) : ExceptT Error m Rendering := do
  let value ← Expr.evaluateM call env expression
  match value.rendering? with
  | some rendering => pure rendering
  | none => throw (.contractViolation (Text.trimmed expression) value.type)

end

/-- A tree, or the error that ended a walk over it. -/
def filledTree : Tree × Option Error → Except Error Tree
  | (root, none) => .ok root
  | (_, some e) => .error e

variable {failure? : String → Option Error} {env env' : Environment} {options : Options}
  {call : Function → List Value → List (String × Value) → Logged Value}

theorem cutsOff_evaluate (h : Expr.EnvironmentCutsOff failure? call env env')
    (expression : String) :
    CutsOff failure? (evaluateM call expression env) (evaluate expression env)
      (evaluate expression env') := by
  have hbind : ∀ env, evaluate expression env = Expr.evaluate expression env >>= fun value =>
      match value.rendering? with
      | some rendering => .ok rendering
      | none => .error (.contractViolation (Text.trimmed expression) value.type) := by
    intro env
    rw [evaluate]
    cases Expr.evaluate expression env <;> rfl
  rw [evaluateM, hbind, hbind]
  refine (Expr.cutsOff_evaluate h expression).bind fun value => ?_
  cases value.rendering? with
  | some rendering => exact CutsOff.pure rendering
  | none => exact CutsOff.lift (.error _)

/-- **A strict walk is the lenient one, cut off**, from wherever it has come. -/
theorem cutsOff_visit (h : Expr.EnvironmentCutsOff failure? call env env')
    (paths : List (List Nat)) :
    ∀ (waiting : Option (List Nat)) (t : Tree),
      CutsOff failure?
        (ExceptT.mk (filledTree <$>
          visitM options (fun expression => (evaluateM call expression env).run) paths waiting t))
        (filledTree (visit options env paths waiting t))
        (filledTree (visit options env' paths waiting t)) := by
  induction paths with
  | nil => intro waiting t; exact CutsOff.pure t
  | cons path rest ih =>
    intro waiting t
    rw [visitM, visit, visit]
    cases (t.get? path).map Tree.kind with
    | none => exact ih waiting t
    | some k =>
      cases k with
      | document => exact ih waiting t
      | other name => exact ih waiting t
      | fence f => exact ih _ t
      | text content =>
        cases waiting with
        | none => exact ih none t
        | some fence =>
          dsimp only
          split
          · exact ih none t
          · -- the one place that evaluates: the walk goes on from what the template gave
            have hstep := (cutsOff_evaluate h content).bind fun r => ih none (apply t path fence r)
            convert hstep using 1
            · refine ExceptT.ext ?_
              rw [ExceptT.run_mk, map_bind, ExceptT.run_bind]
              refine bind_congr fun out => ?_
              cases out <;> rfl
            · cases evaluate content env <;> rfl
            · cases evaluate content env' <;> rfl

theorem cutsOff_fill {ns ns' : Namespace} {root : Tree}
    (h : Expr.EnvironmentCutsOff failure? call (environment ns options root)
      (environment ns' options root)) :
    CutsOff failure?
      (ExceptT.mk (filledTree <$>
        fillM options (fun s => (evaluateM call s (environment ns options root)).run) root))
      (filledTree (fill ns options root)) (filledTree (fill ns' options root)) := by
  unfold fillM fill
  split
  · exact CutsOff.pure root
  · exact cutsOff_visit h root.paths none root

end Template

/-! ## Functions -/

/-- Stores whose values are related one by one. -/
theorem Store.get?_rel {α β : Type} {R : α → β → Prop} {s : Store α} {t : Store β}
    (h : List.Forall₂ (fun e e' => e.1 = e'.1 ∧ R e.2 e'.2) s t) (name : String) :
    Option.Rel R (s.get? name) (t.get? name) := by
  induction h with
  | nil => exact .none
  | @cons e e' s t he _ ih =>
    obtain ⟨n, v⟩ := e
    obtain ⟨n', v'⟩ := e'
    obtain ⟨rfl, hv⟩ := he
    rw [get?, get?]
    split
    · exact .some hv
    · exact ih

namespace Project

variable {p : Project}

/-- The project that takes failures as they come. -/
def lenient (p : Project) : Project := { p with config := { p.config with strict := false } }

/-- The project that reports failures. -/
def strictly (p : Project) : Project := { p with config := { p.config with strict := true } }

section

variable {m : Type → Type} [Monad m] (run : String → ExceptT Error m String)

/-- The meaning of a function of a project, with another way to run commands. -/
def meaningM (f : Function) (args : Arguments) : ExceptT Error m Value :=
  if f.name = "show_command_output" then do
    let output ← run (← liftM (args.string "cmd"))
    return .rendering (.console output)
  else if f.name = "show_help_menu" then do
    let output ← run ((← liftM (args.string "cmd")) ++ " --help")
    return .rendering (.console output)
  else liftM (f.meaning args)

/-- Binds arguments and applies the meaning. -/
def callM (f : Function) (positional : List Value) (keywords : List (String × Value)) :
    ExceptT Error m Value := do
  meaningM run f (← liftM (f.bind positional keywords))

/-- Renders a text. -/
def renderM (p : Project) (template : Template.Options) (layout : Layout.Options)
    (source : String) : ExceptT Error m String := do
  let d := Document.ofMarkdown source
  let env := Template.environment p.namespace template d.root
  let root ← ExceptT.mk (Template.filledTree <$>
    Template.fillM template (fun expression => (Template.evaluateM (callM run) expression env).run)
      d.root)
  return ({ d with root } : Document).render layout

end

theorem cutsOff_call {failure? : String → Option Error} {run : String → Logged String}
    {f f' : Function} (hname : f.name = f'.name) (hparameters : f.parameters = f'.parameters)
    (h : ∀ args, CutsOff failure? (meaningM run f args) (f.meaning args) (f'.meaning args)) :
    Expr.CallCutsOff failure? (callM run) f f' := by
  intro positional keywords
  have hcall :
      ∀ f : Function, f.call positional keywords = f.bind positional keywords >>= f.meaning := by
    intro f
    rw [Function.call]
    cases f.bind positional keywords <;> rfl
  have hbind : f'.bind positional keywords = f.bind positional keywords := by
    rw [Function.bind, Function.bind, hname, hparameters]
  rw [callM, hcall, hcall, hbind]
  exact (CutsOff.lift _).bind h

/-- The functions of a strict project are those of the lenient one, up to calls that are cut off. -/
theorem functions_cutsOff (p : Project) :
    List.Forall₂ (fun f f' => f.name = f'.name ∧
        Expr.CallCutsOff p.runner.failure? (callM p.lenient.runner.logged) f f')
      p.lenient.functions p.strictly.functions := by
  have hrun : ∀ command, CutsOff p.runner.failure? (p.lenient.runner.logged command)
      (p.lenient.runner.run command) (p.strictly.runner.run command) := p.runner.cutsOff_run
  refine .cons ⟨rfl, cutsOff_call rfl rfl fun args => ?_⟩
    (.cons ⟨rfl, cutsOff_call rfl rfl fun args => ?_⟩
      (.cons ⟨rfl, cutsOff_call rfl rfl fun args => ?_⟩ .nil))
  · exact (CutsOff.lift (args.string "cmd")).bind fun command =>
      (hrun command).bind fun output => CutsOff.pure _
  · exact (CutsOff.lift (args.string "cmd")).bind fun command =>
      (hrun (command ++ " --help")).bind fun output => CutsOff.pure _
  · exact CutsOff.lift _

/-- Templates of a strict project see what those of the lenient one see, up to calls that are cut
off. -/
theorem environmentCutsOff (p : Project) (options : Template.Options) (root : Tree) :
    Expr.EnvironmentCutsOff p.runner.failure? (callM p.lenient.runner.logged)
      (Template.environment p.lenient.namespace options root)
      (Template.environment p.strictly.namespace options root) := by
  have hnodup : ∀ p : Project, p.namespace.functions.names.Nodup := fun _ =>
    (by decide : ["show_command_output", "show_help_menu", "show_source_code"].Nodup)
  have hexport :
    ∀ name, Option.Rel (Expr.BindingCutsOff p.runner.failure? (callM p.lenient.runner.logged))
      (p.lenient.namespace.export.lookup name) (p.strictly.namespace.export.lookup name) := by
    intro name
    have hstores : List.Forall₂ (fun e e' => e.1 = e'.1 ∧
          Expr.CallCutsOff p.runner.failure? (callM p.lenient.runner.logged) e.2 e'.2)
        p.lenient.namespace.functions p.strictly.namespace.functions :=
      List.forall₂_map_left_iff.mpr (List.forall₂_map_right_iff.mpr (functions_cutsOff p))
    rw [Namespace.lookup_export (hnodup _), Namespace.lookup_export (hnodup _)]
    have hget := Store.get?_rel hstores name
    unfold Namespace.function?
    generalize p.lenient.namespace.functions.get? name = f at hget
    generalize p.strictly.namespace.functions.get? name = f' at hget
    cases hget with
    | none => exact .none
    | some hcall => exact .some (.function hcall)
  have hhides : ∀ p : Project, p.namespace.export.hasFunction Template.documentName = false :=
    fun _ => rfl
  intro name
  rw [Template.lookup_environment, Template.lookup_environment, hhides, hhides]
  split
  · exact .some (.value _)
  · exact hexport name

/-! ## Renderings -/

/-- **A strict rendering is the lenient one, cut off** at the first command that fails. -/
theorem cutsOff_render (p : Project) (template : Template.Options) (layout : Layout.Options)
    (source : String) :
    CutsOff p.runner.failure? (renderM p.lenient.runner.logged p.lenient template layout source)
      (Document.renderMarkdown p.lenient.namespace template layout source)
      (Document.renderMarkdown p.strictly.namespace template layout source) := by
  have hrender : ∀ ns, Document.renderMarkdown ns template layout source =
      (do
        let root ← Template.filledTree (Template.fill ns template (Document.ofMarkdown source).root)
        pure (({ Document.ofMarkdown source with root } : Document).render layout)) := by
    intro ns
    unfold Document.renderMarkdown Document.fill
    generalize Template.fill ns template (Document.ofMarkdown source).root = out
    obtain ⟨root, _ | e⟩ := out <;> rfl
  rw [hrender, hrender]
  exact (Template.cutsOff_fill (environmentCutsOff p template _)).bind fun root => CutsOff.pure _

/-- **Strictness only turns failures into errors.** The commands that a lenient rendering runs are
known, in their order. A text that a strict rendering gives is the text of the lenient one. When
only the strict one fails, then with the error of the first of these commands that could not be
started, or that ended with another status than zero. -/
theorem render_strict (p : Project) (template : Template.Options) (layout : Layout.Options)
    (source : String) :
    ∃ commands,
      (renderM p.lenient.runner.logged p.lenient template layout source).run.run [] =
        (Document.renderMarkdown p.lenient.namespace template layout source, commands) ∧
      (∀ text, Document.renderMarkdown p.strictly.namespace template layout source = .ok text →
        Document.renderMarkdown p.lenient.namespace template layout source = .ok text) ∧
      ∀ text e, Document.renderMarkdown p.lenient.namespace template layout source = .ok text →
        Document.renderMarkdown p.strictly.namespace template layout source = .error e →
        ∃ before command after, commands = before ++ command :: after ∧
          (∀ c ∈ before, (p.launch p.config.workingDirectory c).succeeded = true) ∧
          (p.launch p.config.workingDirectory command = .notStarted ∧ e = .io ∨
            ∃ status output complaint,
              p.launch p.config.workingDirectory command = .finished status output complaint ∧
              status ≠ some 0 ∧
              e = .commandFailed command status (Text.trimmed (Runner.textOf complaint))) := by
  obtain ⟨commands, hrun, hstrict⟩ := cutsOff_render p template layout source []
  refine ⟨commands, hrun, fun text htext => ?_, fun text e htext he => ?_⟩
  · rw [hstrict, cutOff] at htext
    split at htext
    · cases htext
    · exact htext
  · rw [hstrict, cutOff] at he
    split at he
    · next e' hfirst =>
      cases he
      obtain ⟨before, command, after, rfl, hfails, hbefore⟩ := List.findSome?_eq_some_iff.mp hfirst
      exact ⟨before, command, after, rfl, fun c hc => Outcome.succeeded_of_failure? (hbefore c hc),
        Outcome.of_failure? hfails⟩
    · rw [htext] at he
      cases he

end Project

end LiveDoc
