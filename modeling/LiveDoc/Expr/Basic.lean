import LiveDoc.Expr.Literal
import LiveDoc.Text.Blank

/-!
# Expressions

An expression is a literal, a name, or a call with positional and then keyword arguments.

* `Expr.parse` reads a whole source. All tokens are read first, so a fault in a token wins over
  any fault in how tokens are put together.
* A name is taken for a keyword when an equals sign follows it, even when it is a literal word.
-/

namespace LiveDoc

/-- An expression. -/
inductive Expr where
  | literal (value : Value)
  | name (name : String)
  | call (function : String) (positional : List Expr) (keywords : List (String × Expr))

namespace Expr

/-- The literal of a string token. -/
def stringLiteral (text : List Char) : Except ExprFault Value :=
  match Literal.string text with
  | .ok s => .ok (.string (String.ofList s))
  | .error fault => .error (.escape (String.ofList text) fault)

/-- The literal of an integer token. -/
def integerLiteral (text : List Char) : Except ExprFault Value :=
  match Literal.integer text with
  | .ok n => .ok (.int n)
  | .error fault => .error (.integer (String.ofList text) fault)

/-- What is reported when the token behind an argument is none that may stand there. -/
def separatorExpected (found : Option Token) : ExprFault :=
  .expected "`,` or `)`" (found.map fun t => String.ofList t.text)

mutual

/-- Reads one expression, and returns the tokens behind it. Every step down spends fuel; two steps
for each token are enough. -/
def readExpr : (fuel : Nat) → List Token → Except ExprFault (Expr × List Token)
  | 0, _ => .error .empty
  | _ + 1, [] => .error .empty
  | fuel + 1, token :: rest =>
    match token.kind with
    | .identifier =>
      match Literal.word? token.text with
      | some value => .ok (.literal value, rest)
      | none =>
        match rest with
        | ⟨.parenOpen, _⟩ :: more => readArguments fuel (String.ofList token.text) [] [] more
        | _ => .ok (.name (String.ofList token.text), rest)
    | .string => (stringLiteral token.text).map fun value => (.literal value, rest)
    | .integer => (integerLiteral token.text).map fun value => (.literal value, rest)
    | .float => .ok (.literal (.float (Literal.float token.text)), rest)
    | _ => .error (.unexpected (String.ofList token.text))

/-- Reads the arguments of a call up to its closing parenthesis. The arguments read so far are
given in order. -/
def readArguments : (fuel : Nat) → (function : String) → (positional : List Expr) →
    (keywords : List (String × Expr)) → List Token → Except ExprFault (Expr × List Token)
  | 0, _, _, _, _ => .error .empty
  | _ + 1, function, positional, keywords, ⟨.parenClose, _⟩ :: rest =>
    .ok (.call function positional keywords, rest)
  | fuel + 1, function, positional, keywords, ⟨.identifier, key⟩ :: ⟨.equals, _⟩ :: rest =>
    match readExpr fuel rest with
    | .error fault => .error fault
    | .ok (value, after) =>
      readSeparator fuel function positional (keywords ++ [(String.ofList key, value)]) after
  | fuel + 1, function, positional, keywords, tokens =>
    if keywords.isEmpty then
      match readExpr fuel tokens with
      | .error fault => .error fault
      | .ok (value, after) => readSeparator fuel function (positional ++ [value]) keywords after
    else .error .positionalAfterKeyword

/-- Reads what must stand behind an argument: a comma, after which more arguments may follow, or
the closing parenthesis. -/
def readSeparator : (fuel : Nat) → (function : String) → (positional : List Expr) →
    (keywords : List (String × Expr)) → List Token → Except ExprFault (Expr × List Token)
  | 0, _, _, _, _ => .error .empty
  | fuel + 1, function, positional, keywords, tokens =>
    match tokens with
    | ⟨.comma, _⟩ :: rest => readArguments fuel function positional keywords rest
    | ⟨.parenClose, _⟩ :: rest => .ok (.call function positional keywords, rest)
    | _ => .error (separatorExpected tokens.head?)

end

/-- Fuel that reading a list of tokens cannot use up. -/
def enoughFuel (tokens : List Token) : Nat := 3 * tokens.length + 3

/-- The expression that a list of tokens forms, none left over. -/
def ofTokens (tokens : List Token) : Except ExprFault Expr :=
  match readExpr (enoughFuel tokens) tokens with
  | .error fault => .error fault
  | .ok (e, []) => .ok e
  | .ok (_, _ :: _) => .error .trailingInput

/-- The expression of a source, or the fault in it. -/
def read (source : List Char) : Except ExprFault Expr :=
  match Token.tokens source with
  | .error fault => .error fault
  | .ok tokens => ofTokens tokens

/-- The expression of a source. Errors quote the source without the blanks around it. -/
def parse (source : String) : Except Error Expr :=
  match read source.toList with
  | .ok e => .ok e
  | .error fault => .error (.invalidExpression (Text.trimmed source) fault)

end Expr

end LiveDoc
