import LiveDoc.CommandLine.Footprint
import LiveDoc.Shell.Run

/-!
# The program

Reads the files that a call may look at, works out its effect, and carries the effect out. All that
is decided is decided by `CommandLine.run`.
-/

namespace LiveDoc.Main

/-- Adds what is at a path of the file system, if anything is. What can be opened but not read is a
directory. -/
def load (files : FileTree) (path : String) : IO FileTree := do
  match ← (IO.FS.readBinFile path).toBaseIO with
  | .ok bytes => return files.add path bytes
  | .error (.inappropriateType none _ _) => return files.add (path ++ "/") .empty
  | .error _ => return files

/-- The files that a call may look at. -/
def filesFor (home : Location) (i : CommandLine.Invocation) : IO FileTree := do
  let files ← i.inputs.foldlM load (FileTree.empty home)
  (i.mentions files).foldlM load files

/-- Whether colors can be used. -/
def hasColor : IO Bool := do
  if (← IO.getEnv "NO_COLOR").isSome then return false
  if (← IO.getEnv "FORCE_COLOR").isSome then return true
  (← IO.getStderr).isTty

/-- The file that a call writes, if it succeeds. -/
def target? (i : CommandLine.Invocation) (effect : CommandLine.Effect) :
    Option (String × ByteArray) :=
  match i.task with
  | .render (some path) => (effect.files.bytes? path).map fun bytes => (path, bytes)
  | _ => none

/-- Carries an effect out. -/
def carryOut (target : Option (String × ByteArray)) (color : Bool) (effect : CommandLine.Effect) :
    IO UInt32 := do
  if effect.status = 0 then
    if let some (path, bytes) := target then
      if let .error e ← (IO.FS.writeBinFile path bytes).toBaseIO then
        IO.eprint (CommandLine.Effect.outsideError color (toString e))
        return 2
  IO.print effect.output
  IO.eprint effect.complaint
  return UInt32.ofNat effect.status

/-- Runs the program with its arguments, and gives its status. -/
def run (arguments : List String) : IO UInt32 := do
  let home := (Path.steps (← IO.currentDir).toString).filter (· ≠ "")
  let color ← hasColor
  match CommandLine.Invocation.parse arguments with
  | .error e => carryOut none color (.ofUsageError (.empty home) e)
  | .ok i =>
    let files ← filesFor home i
    let effect := i.perform (Shell.launcher files) color files
    carryOut (target? i effect) (color && !i.noColor) effect

end LiveDoc.Main

/-- The program. -/
def main (arguments : List String) : IO UInt32 := LiveDoc.Main.run arguments
