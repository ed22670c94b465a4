import LiveDoc.CommandLine.Invocation
import LiveDoc.Diff
import LiveDoc.Project

/-!
# Effects

What the program does when it is called: what it prints, what it complains about, the files
afterwards, and the status with which it ends. The status is 0 when all is well, 1 when a check
finds that a file is not up to date, and 2 when the work failed.

* `check` only looks at files;
* `render` writes no file but the one that it was given, and only when the rendering succeeded.
-/

namespace LiveDoc.CommandLine

/-- What a call of the program leaves behind. -/
structure Effect where
  status : Nat
  output : String
  complaint : String
  files : FileTree

namespace Effect

/-! ## Colors -/

/-- The colors of what is printed. -/
inductive Color where
  | red
  | green
  | yellow

/-- The code of a color on terminals. -/
def Color.code : Color → Nat
  | red => 31
  | green => 32
  | yellow => 33

/-- A text in a color, or as it is when there are to be no colors. -/
def painted (hasColor : Bool) (c : Color) (text : String) : String :=
  if hasColor then s!"\x1b[{c.code}m{text}\x1b[39m" else text

/-! ## Reports -/

/-- A line that can stand behind another one. -/
def ended (line : String) : String :=
  if Text.endsWith '\n' line.toList || Text.endsWith '\r' line.toList then line else line ++ "\n"

/-- A line of a difference. -/
def diffLine (hasColor : Bool) : Diff.Fate × String → String
  | (.kept, line) => "   " ++ ended line
  | (.deleted, line) => "  " ++ painted hasColor .red ("-" ++ ended line)
  | (.inserted, line) => "  " ++ painted hasColor .green ("+" ++ ended line)

/-- The report of an error of the work. -/
def report (hasColor : Bool) (e : Error) : String :=
  let code := if hasColor then s!"\x1b[31m{e.code}\x1b[0m" else e.code
  let help := match e.help? with
    | some help => s!"  help: {help}\n"
    | none => ""
  s!"{code}\n\n  x {e.message}\n" ++ help

/-- The report of any other error. -/
def outsideError (hasColor : Bool) (reason : String) : String :=
  painted hasColor .red "error:" ++ s!" {reason}\n"

/-- What the program can do, in short. -/
def usage : String :=
  "Render markdown documentation whose code fences run commands and show source.\n\n" ++
    "Usage: writeme [OPTIONS] <COMMAND>\n\n" ++
    "Commands:\n  render  Render a markdown template\n" ++
    "  check   Check that a rendered file is up to date with its template\n" ++
    "  help    Print this message or the help of the given subcommand(s)\n\n" ++
    "Options:\n      --config <CONFIG>  Path to a config file\n" ++
    "  -v, --verbose          Enable verbose output\n" ++
    "      --no-color         Disable colored output\n" ++
    "  -h, --help             Print help\n  -V, --version          Print version\n"

/-- The name and the version of the program. -/
def versionLine : String := "writeme_cli 0.3.0\n"

/-- What is said about a command line that asks for nothing that can be done. -/
def reasonOf : UsageError → String
  | .unknownArgument => "unexpected argument found"
  | .missingArgument => "the following required arguments were not provided"
  | .malformedValue => "invalid value: not a number"
  | .emptyValue => "a value is required but none was supplied"
  | .needlessValue => "unexpected value found"
  | .repeatedOption => "an argument cannot be used multiple times"
  | .unknownTask => "unrecognized subcommand"
  | .missingTask => "a subcommand is required but one was not provided"
  | .nothingGiven | .help | .version => ""

/-- The effect of a command line that asks for nothing that can be done. -/
def ofUsageError (files : FileTree) (e : UsageError) : Effect :=
  match e with
  | .help => ⟨0, usage, "", files⟩
  | .version => ⟨0, versionLine, "", files⟩
  | .nothingGiven => ⟨2, "", usage, files⟩
  | e => ⟨2, "", outsideError false (reasonOf e), files⟩

/-- The effect of a failure that is reported. -/
def failure (files : FileTree) (complaint : String) : Effect := ⟨2, "", complaint, files⟩

end Effect

namespace Invocation

/-! ## Rendering -/

/-- A configuration with what overrides it. -/
def override (o : Overrides) (c : Config) : Config :=
  { c with
    layout := ⟨o.width.or c.layout.width, o.normalizes || c.layout.normalizes⟩
    template := { c.template with tag := o.tag.or c.template.tag }
    strict := o.strict || c.strict }

/-- The configuration that an invocation works with: that of the file it names, that of the current
directory, or the standard one. -/
def configuration (i : Invocation) (files : FileTree) : Except Error Config :=
  let found : Except Error Config := match i.config with
    | some path => Config.loadFile files path (Path.directory path)
    | none =>
      let root := "/" ++ "/".intercalate files.home
      (Config.load files root).map fun c => c.getD (Config.standard.relativeTo root)
  found.map (override i.overrides)

/-- The document that an invocation names, rendered. -/
def rendered (i : Invocation) (launch : Launcher) (files : FileTree) : Except Error String :=
  match i.configuration files with
  | .error e => .error e
  | .ok config =>
    match files.readText i.document with
    | .error e => .error e
    | .ok source => Project.render ⟨config, files, launch⟩ source

/-! ## Tasks -/

/-- Prints a rendered document, or writes it to a file. -/
def renderTask (hasColor : Bool) (files : FileTree) (text : String) : Option String → Effect
  | none => ⟨0, text, "", files⟩
  | some path =>
    match files.write path text with
    | .ok files => ⟨0, s!"Rendered to {path}\n", "", files⟩
    | .error e => .failure files (Effect.outsideError hasColor e.message)

/-- The text that a file is compared by. A file that is not there counts as empty. -/
def current (files : FileTree) (path : String) : Except Error String :=
  if files.isFile path then files.readText path else .ok ""

/-- What a check complains about. -/
def staleness (hasColor : Bool) (document path : String) : String :=
  Effect.painted hasColor .yellow "stale:" ++
    s!" {path} is out of date. Run `writeme render {document} --output {path}` to update it.\n"

/-- Compares a rendered document with a file. -/
def checkTask (hasColor : Bool) (files : FileTree) (document text path : String)
    (showsDiff : Bool) : Effect :=
  match current files path with
  | .error e => .failure files (Effect.outsideError hasColor e.message)
  | .ok old =>
    if old = text then ⟨0, s!"Check passed: {path} is up to date.\n", "", files⟩
    else
      let shown := if showsDiff then (diff old text).map (Effect.diffLine hasColor) else []
      ⟨1, "", staleness hasColor document path ++ String.join shown, files⟩

/-- Does what an invocation asks for. -/
def perform (i : Invocation) (launch : Launcher) (color : Bool) (files : FileTree) : Effect :=
  let hasColor := color && !i.noColor
  match i.rendered launch files with
  | .error e => .failure files (Effect.report hasColor e)
  | .ok text =>
    match i.task with
    | .render output => renderTask hasColor files text output
    | .check path showsDiff => checkTask hasColor files i.document text path showsDiff

end Invocation

/-- Runs the program with a command line. `color` says whether there may be colors. -/
def run (launch : Launcher) (color : Bool) (files : FileTree) (arguments : List String) : Effect :=
  match Invocation.parse arguments with
  | .ok i => i.perform launch color files
  | .error e => .ofUsageError files e

end LiveDoc.CommandLine
