import LiveDoc.Error
import LiveDoc.Text.Blank
import LiveDoc.Text.Utf8

/-!
# Commands

Running commands for what they print. How a command is carried out is left open: a `Launcher` says
what comes of a command in a directory. A `Runner` takes failures as they come, and only reports
them when it is strict.
-/

namespace LiveDoc

/-- What comes of a command. -/
inductive Outcome where
  /-- It could not be started. -/
  | notStarted
  /-- It ended, with a status unless it was killed. -/
  | finished (status : Option Nat) (output complaint : List UInt8)
  deriving DecidableEq, Repr

/-- Whether a command was started and succeeded. -/
def Outcome.succeeded : Outcome → Bool
  | finished (some 0) _ _ => true
  | _ => false

/-- What comes of a command in a directory, or in the current one. -/
abbrev Launcher := (directory : Option String) → (command : String) → Outcome

/-- How commands are run. -/
structure Runner where
  launch : Launcher
  /-- Whether a command that fails is an error. -/
  strict : Bool
  directory : Option String

namespace Runner

/-- The text of an output. -/
def textOf (output : List UInt8) : String := String.ofList (Text.decodeLossy output)

/-- What a command prints. -/
def run (r : Runner) (command : String) : Except Error String :=
  match r.launch r.directory command with
  | .notStarted => if r.strict then .error .io else .ok ""
  | .finished status output complaint =>
    if r.strict && status ≠ some 0 then
      .error (.commandFailed command status (Text.trimmed (textOf complaint)))
    else .ok (textOf output)

end Runner

end LiveDoc
