/-!
# Options of the command line

The options that a command line can give, by the level at which they can stand: before the name of a
task, or behind it. Some can stand at both. A `UsageError` says why a command line asks for nothing
that can be done.
-/

namespace LiveDoc.CommandLine

/-- Where on a command line an argument stands: before the name of a task, or behind it. -/
inductive Level where
  | top
  | render
  | check
  deriving DecidableEq, Repr

/-- An option. -/
inductive Flag where
  | config
  | verbose
  | noColor
  | output
  | width
  | normalize
  | tag
  | strict
  | diff
  | help
  | version
  deriving DecidableEq, Repr

namespace Flag

/-- What may follow the name of an option. -/
inductive Operand where
  | none
  /-- A path, which is not empty. -/
  | path
  /-- A number of at most 64 bits. -/
  | number
  | text
  deriving DecidableEq, Repr

/-- What follows an option. -/
def operand : Flag → Operand
  | config | output => .path
  | width => .number
  | tag => .text
  | verbose | noColor | normalize | strict | diff | help | version => .none

/-- The names of an option behind two dashes. -/
def names : Flag → List String
  | config => ["config"]
  | verbose => ["verbose"]
  | noColor => ["no-color"]
  | output => ["output"]
  | width => ["max-line-length", "mxl"]
  | normalize => ["normalize-whitespaces", "norm"]
  | tag => ["tag"]
  | strict => ["strict-commands"]
  | diff => ["diff"]
  | help => ["help"]
  | version => ["version"]

/-- The name of an option behind one dash. -/
def letter? : Flag → Option Char
  | verbose => some 'v'
  | output => some 'o'
  | help => some 'h'
  | version => some 'V'
  | _ => Option.none

end Flag

/-- The options that can stand at a level. -/
def Level.flags : Level → List Flag
  | top => [.config, .verbose, .noColor, .help, .version]
  | render =>
    [.config, .verbose, .noColor, .output, .width, .normalize, .tag, .strict, .help]
  | check =>
    [.config, .verbose, .noColor, .output, .width, .normalize, .tag, .strict, .diff, .help]

/-- The option of a name at a level. -/
def Level.flag? (l : Level) (name : String) : Option Flag :=
  l.flags.find? fun f => f.names.contains name

/-- The option of a letter at a level. -/
def Level.flagOfLetter? (l : Level) (c : Char) : Option Flag :=
  l.flags.find? fun f => f.letter? = some c

/-- Why a command line asks for nothing that can be done. -/
inductive UsageError where
  /-- There is no such option, or an argument too many. -/
  | unknownArgument
  | missingArgument
  /-- A value is no number. -/
  | malformedValue
  /-- A value is missing, or empty where it must not be. -/
  | emptyValue
  /-- An option that takes no value was given one. -/
  | needlessValue
  | repeatedOption
  | unknownTask
  | missingTask
  /-- Nothing was given at all. -/
  | nothingGiven
  /-- The help text was asked for. -/
  | help
  /-- The version was asked for. -/
  | version
  deriving DecidableEq, Repr

end LiveDoc.CommandLine
