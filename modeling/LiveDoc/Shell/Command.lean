/-!
# Shell commands

The commands of the POSIX shell. A word keeps what is to be expanded in it as source text, because
that is read only when the word is expanded.
-/

namespace LiveDoc.Shell

/-- A part of a word. What is quoted is neither split into fields nor matched against file names. -/
inductive Part where
  | text (quoted : Bool) (chars : List Char)
  /-- The value of a parameter, or with an operator and a word what these make of it. -/
  | parameter (quoted : Bool) (name : String) (operator : String) (word : List Char)
  /-- The length of the value of a parameter. -/
  | length (name : String)
  /-- What a script prints. -/
  | script (quoted : Bool) (source : List Char)
  /-- The value of an arithmetic expression. -/
  | arithmetic (quoted : Bool) (source : List Char)
  /-- What stands in braces but means nothing. -/
  | malformed
  deriving DecidableEq, Repr

/-- A word: its parts in order. -/
abbrev Word := List Part

/-- What a redirection does with a file. -/
inductive Direction where
  | input
  | output
  | append
  /-- The other end is another descriptor. -/
  | duplicate
  /-- The input is the word itself. -/
  | document
  deriving DecidableEq, Repr

/-- A redirection of a descriptor. -/
structure Redirection where
  descriptor : Nat
  direction : Direction
  target : Word
  deriving DecidableEq, Repr

/-- A command. -/
inductive Command where
  | simple (assignments : List (String × Word)) (words : List Word)
      (redirections : List Redirection)
  /-- Commands of which each reads what the one before prints. -/
  | pipeline (negated : Bool) (stages : List Command)
  | both (first second : Command)
  | either (first second : Command)
  | sequence (commands : List Command)
  | redirected (body : Command) (redirections : List Redirection)
  /-- A command that changes nothing outside. -/
  | subshell (body : Command)
  | conditional (condition consequence alternative : Command)
  /-- Runs the body as long as the condition succeeds, or fails. -/
  | loop (whileSucceeding : Bool) (condition body : Command)
  | forEach (name : String) (words : Option (List Word)) (body : Command)
  | choice (subject : Word) (cases : List (List Word × Command))
  | define (name : String) (body : Command)
  deriving Repr

/-- The command that does nothing. -/
def Command.skip : Command := .sequence []

end LiveDoc.Shell
