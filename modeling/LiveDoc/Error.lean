import LiveDoc.Value

/-!
# Errors

Every way in which the work can fail, as the cause of the failure. The wording is in one place:
`Error.message` says what happened, `Error.code` names the kind of error, `Error.help?` says what
to do about it.
-/

namespace LiveDoc

/-- Why a text is no number of a bounded integer type. -/
inductive NumberFault where
  | empty
  | invalidDigit
  | tooLarge
  | tooSmall
  deriving DecidableEq, Repr

/-- What is said about the fault. -/
def NumberFault.message : NumberFault → String
  | empty => "cannot parse integer from empty string"
  | invalidDigit => "invalid digit found in string"
  | tooLarge => "number too large to fit in target type"
  | tooSmall => "number too small to fit in target type"

/-- Why the escape of a code point cannot be read. -/
inductive CodePointFault where
  | noBrace
  | noNumber (digits : String) (fault : NumberFault)
  | noCharacter (code : Nat)
  deriving DecidableEq, Repr

/-- What is said about the fault. -/
def CodePointFault.message : CodePointFault → String
  | noBrace => "expected '\x7b' character in unicode escape"
  | noNumber digits fault => s!"could not parse {digits} as u32 hex: {fault.message}"
  | noCharacter code => s!"could not parse {code} as a unicode char"

/-- Why the escapes of a text cannot be read. The place is that of the character behind the
backslash, counted in characters of `text`. -/
inductive EscapeFault where
  | unknown (escape : String) (place : Nat) (text : String)
  | codePoint (fault : CodePointFault) (place : Nat) (text : String)
  deriving DecidableEq, Repr

/-- What is said about the fault. -/
def EscapeFault.message : EscapeFault → String
  | unknown escape place text => s!"invalid escape {escape} at {place} in {text}"
  | codePoint fault place text =>
    s!"\\u could not be parsed at {place} in {text}: {fault.message}"

/-- Why a source is no expression. -/
inductive ExprFault where
  /-- No token starts here; the piece is what was tried. -/
  | noToken (piece : String) (place : Nat)
  | empty
  | trailingInput
  | unexpected (token : String)
  | expected (what : String) (found : Option String)
  | positionalAfterKeyword
  | integer (token : String) (fault : NumberFault)
  | escape (token : String) (fault : EscapeFault)
  deriving DecidableEq, Repr

/-- What is said about the fault. -/
def ExprFault.message : ExprFault → String
  | noToken piece place => s!"unexpected `{piece}` at offset {place}"
  | empty => "empty expression"
  | trailingInput => "unexpected trailing input"
  | unexpected token => s!"unexpected `{token}`"
  | expected what (some token) => s!"expected {what}, found `{token}`"
  | expected what none => s!"expected {what}, found end of input"
  | positionalAfterKeyword => "positional argument follows keyword argument"
  | integer token fault => s!"invalid integer `{token}`: {fault.message}"
  | escape token fault => s!"invalid escape in {token}: {fault.message}"

/-- Why arguments do not fit a function, or a function is used wrongly. -/
inductive ArgumentFault where
  | tooMany (takes given : Nat)
  | unexpectedKeyword (name : String)
  | repeated (name : String)
  | missing (name : String)
  /-- The function was named but not called. -/
  | notCalled (name : String)
  /-- The function asked for a parameter that it did not declare. -/
  | noParameter (name : String)
  deriving DecidableEq, Repr

/-- What is said about the fault. -/
def ArgumentFault.message : ArgumentFault → String
  | tooMany takes given => s!"takes {takes} argument(s) but {given} were given"
  | unexpectedKeyword name => s!"unexpected keyword argument `{name}`"
  | repeated name => s!"got multiple values for argument `{name}`"
  | missing name => s!"missing required argument `{name}`"
  | notCalled name => s!"functions must be called, e.g. `{name}(...)`"
  | noParameter name => s!"no parameter named `{name}`"

/-- Everything that can go wrong. -/
inductive Error where
  /-- The outside world refused: a file or a program could not be used. -/
  | io
  /-- A document cannot be read, or a rendering function gave up with a message. -/
  | markdown (reason : String)
  | configuration
  | invalidReference (reference : String)
  | moduleNotFound (module : String) (searched : List String)
  | objectNotFound (module object : String)
  | unsupportedDeclaration (firstLine : String)
  | contractViolation (expression : String) (found : ValueType)
  | duplicateRegistration (name : String)
  | invalidExpression (expression : String) (fault : ExprFault)
  | unknownName (name : String)
  | notCallable (name : String)
  | invalidArguments (function : String) (fault : ArgumentFault)
  | invalidArgumentType (function parameter : String) (expected found : ValueType)
  /-- A command ended with a status other than zero, or without one. -/
  | commandFailed (command : String) (status : Option Nat) (complaint : String)
  deriving DecidableEq, Repr

namespace Error

/-- What happened. The causes that come from outside have no wording of their own. -/
def message : Error → String
  | io => "input or output failed"
  | markdown reason => s!"failure to load markdown: {reason}"
  | configuration => "failed to parse config file"
  | invalidReference reference => s!"invalid source reference `{reference}`"
  | moduleNotFound module _ => s!"failed to find module `{module}` in any source root"
  | objectNotFound module object => s!"failed to find `{object}` in module `{module}`"
  | unsupportedDeclaration firstLine => s!"cannot strip the body of `{firstLine}`"
  | contractViolation expression found =>
    "namespace function does not comply with expected signature: " ++
      s!"`{expression}` produced {found.name}"
  | duplicateRegistration name => s!"`{name}` is already declared in the namespace"
  | invalidExpression expression fault =>
    s!"invalid expression `{expression}`: {fault.message}"
  | unknownName name => s!"unknown name: `{name}`"
  | notCallable name => s!"`{name}` is not callable"
  | invalidArguments function fault =>
    s!"invalid arguments for `{function}`: {fault.message}"
  | invalidArgumentType function parameter expected found =>
    s!"argument `{parameter}` of `{function}` expects {expected.name}, got {found.name}"
  | commandFailed command (some status) _ =>
    s!"command `{command}` exited with status {status}"
  | commandFailed command none _ => s!"command `{command}` exited with status unknown"

/-- The name of the kind of error in reports. -/
def code : Error → String
  | io => "writeme::io_error"
  | markdown _ => "writeme::markdown"
  | configuration => "writeme::config_parse"
  | invalidReference _ => "writeme::invalid_reference"
  | moduleNotFound _ _ => "writeme::module_not_found"
  | objectNotFound _ _ => "writeme::object_not_found"
  | unsupportedDeclaration _ => "writeme::unsupported_declaration"
  | contractViolation _ _ => "writeme::contract_violation"
  | duplicateRegistration _ => "writeme::duplicate_registration"
  | invalidExpression _ _ => "writeme::invalid_expression"
  | unknownName _ => "writeme::unknown_name"
  | notCallable _ => "writeme::not_callable"
  | invalidArguments _ _ => "writeme::invalid_arguments"
  | invalidArgumentType _ _ _ _ => "writeme::invalid_argument_type"
  | commandFailed _ _ _ => "writeme::command_failed"

/-- What to do about it. -/
def help? : Error → Option String
  | configuration => some <|
    "check that writeme.toml is valid TOML with [render], [source] and/or [commands] sections"
  | invalidReference _ => some <|
    "references are written as `module.path:ItemName`, e.g. `engine:TemplateEngine`"
  | moduleNotFound _ searched => some ("searched: " ++ ", ".intercalate searched)
  | objectNotFound _ _ => some "only top-level items of the module file can be referenced"
  | unsupportedDeclaration _ => some <|
    "declaration_only supports functions and structs, enums, unions or traits with a body"
  | contractViolation _ _ => some "rendering functions must return a RenderingResult"
  | invalidExpression _ _ => some <|
    "a writeme block holds a single call, e.g. `show_command_output(\"ls -la\")`"
  | commandFailed _ _ complaint => some complaint
  | _ => none

end Error

end LiveDoc
