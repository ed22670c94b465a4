import LiveDoc.Command
import LiveDoc.Config

/-!
# Projects

A configuration together with what it works on: the files, and a way to run commands. The templates
of a project can call three functions, which show the output of a command, the help text of a
program, and a piece of source code.
-/

namespace LiveDoc

/-- A configuration with the world that it works on. -/
structure Project where
  config : Config
  files : FileTree
  launch : Launcher

namespace Project

/-- How the commands of a project are run. -/
def runner (p : Project) : Runner := ⟨p.launch, p.config.strict, p.config.workingDirectory⟩

/-- Shows what a command prints. -/
def showCommandOutput (r : Runner) : Function where
  name := "show_command_output"
  parameters := [⟨"cmd", none⟩]
  meaning args := do
    let output ← r.run (← args.string "cmd")
    return .rendering (.console output)

/-- Shows what a program prints when it is asked for help. -/
def showHelpMenu (r : Runner) : Function where
  name := "show_help_menu"
  parameters := [⟨"cmd", none⟩]
  meaning args := do
    let output ← r.run ((← args.string "cmd") ++ " --help")
    return .rendering (.console output)

/-- Shows the source of an item, or its declaration only. -/
def showSourceCode (roots : Roots) (files : FileTree) : Function where
  name := "show_source_code"
  parameters :=
    [⟨"import_path", none⟩, ⟨"declaration_only", some (.bool false)⟩,
      ⟨"language", some (.string "rust")⟩]
  meaning args := do
    let reference ← args.string "import_path"
    let source ← roots.extract files reference (← args.bool "declaration_only")
    return .rendering (.code source (← args.string "language"))

/-- The functions that templates of a project can call. -/
def functions (p : Project) : List Function :=
  [showCommandOutput p.runner, showHelpMenu p.runner, showSourceCode p.config.roots p.files]

/-- The names that templates of a project see. -/
def «namespace» (p : Project) : Namespace := ⟨p.functions.map fun f => (f.name, f), []⟩

/-- Renders a text. -/
def render (p : Project) (source : String) : Except Error String :=
  Document.renderMarkdown p.namespace p.config.template p.config.layout source

end Project

end LiveDoc
