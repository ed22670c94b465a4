import LiveDoc.Text.Blank
import LiveDoc.Text.Lines
import LiveDoc.Tree

/-!
# Writing fences

A fence that was changed is written in place of the one that was read. It keeps the indentation and
the marker of the old one, and its lines keep what containers put in front of them. The marker is
made longer where the new body holds one as long.
-/

namespace LiveDoc.Layout

/-- The number of markers that a text starts with. -/
def leadingRun (marker : Char) (text : List Char) : Nat := (text.takeWhile (· = marker)).length

/-- The text without `suffix` at its end, if it ends so. -/
def dropSuffix? (suffix text : List Char) : Option (List Char) :=
  if suffix.reverse.isPrefixOf text.reverse then
    some (text.take (text.length - suffix.length))
  else none

/-- What stands before the marker on a line that closes a fence. -/
def closingPrefix? (marker : Char) (length : Nat) (line : List Char) : Option (List Char) :=
  let run := line.dropWhile (· ≠ marker)
  if !run.isEmpty && length ≤ leadingRun marker run && (Text.trimEnd run).all (· = marker) then
    some (line.takeWhile (· ≠ marker))
  else none

/-- What stands on a line before its text, for the first line whose text is not empty. -/
def bodyPrefix? : (lines texts : List (List Char)) → Option (List Char)
  | line :: lines, text :: texts =>
    match if text.isEmpty then none else dropSuffix? text line with
    | some before => some before
    | none => bodyPrefix? lines texts
  | _, _ => none

/-- What the writing of a fence takes from the text of the old one. -/
structure FenceShape where
  indent : List Char
  marker : Char
  /-- The length of the opening marker. -/
  length : Nat
  /-- What comes before every line behind the first. -/
  margin : List Char
  /-- Whether the old fence ended with a line end. -/
  isOpen : Bool
  deriving DecidableEq, Repr

/-- Reads the shape of a fence from its text and from the body that was read. -/
def FenceShape.ofText (old body : List Char) : FenceShape :=
  let lines := Text.lines old
  let opening := lines.head?.getD []
  let rest := lines.drop 1
  let indent := opening.takeWhile Text.isBlank
  let run := Text.trimStart opening
  let marker := run.head?.getD '`'
  let length := leadingRun marker run
  let margin := (rest.getLast?.bind (closingPrefix? marker length)).or
    (bodyPrefix? rest (Text.lines body))
  ⟨indent, marker, length, margin.getD indent, Text.endsWith '\n' old⟩

/-- The length of the longest marker that a line of a body starts with. -/
def longestRun (marker : Char) (body : List Char) : Nat :=
  (Text.lines body).foldl (fun n line => max n (leadingRun marker (Text.trimStart line))) 0

/-- Writes the line of a body behind a margin. -/
def writeLine (margin : List Char) (line : List Char) : List Char :=
  let line := Text.dropFinal '\r' line
  if line.isEmpty then Text.trimEnd margin else margin ++ line

/-- Writes a fence of a given shape. -/
def writeFence (shape : FenceShape) (info content ending : List Char) : List Char :=
  let body := Text.dropFinal '\n' content
  let marker :=
    List.replicate (max shape.length (longestRun shape.marker body + 1)) shape.marker
  let lines := if content.isEmpty then [] else Text.split '\n' body
  shape.indent ++ marker ++ info ++ ending ++
    lines.flatMap (fun line => writeLine shape.margin line ++ ending) ++
    shape.margin ++ marker ++ (if shape.isOpen then ending else [])

/-- Writes a fence with a body in place of the text that it was read from. -/
def renderFence (old : List Char) (fence : Fence) (content ending : List Char) : List Char :=
  writeFence (.ofText old fence.parsedBody.toList) fence.info.toList content ending

end LiveDoc.Layout
