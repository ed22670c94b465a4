import LiveDoc.Expr.Basic
import LiveDoc.Namespace

/-!
# Evaluation

The value of an expression in an environment. A call looks its function up first, then evaluates
its positional and keyword arguments from left to right, then binds them. The first error wins.
-/

namespace LiveDoc.Expr

/-- The value that a bare name stands for. -/
def evalName (env : Environment) (name : String) : Except Error Value :=
  match env.lookup name with
  | some (.value v) => .ok v
  | some (.function _) => .error (.invalidArguments name (.notCalled name))
  | none => .error (.unknownName name)

/-- The function that a callee stands for. -/
def callee (env : Environment) (name : String) : Except Error Function :=
  match env.lookup name with
  | some (.function f) => .ok f
  | some (.value _) => .error (.notCallable name)
  | none => .error (.unknownName name)

mutual

/-- The value of an expression. -/
def eval (env : Environment) : Expr → Except Error Value
  | literal v => .ok v
  | name n => evalName env n
  | call f positional keywords =>
    match callee env f with
    | .error e => .error e
    | .ok function =>
      match evalPositional env positional with
      | .error e => .error e
      | .ok vs =>
        match evalKeywords env keywords with
        | .error e => .error e
        | .ok kvs => function.call vs kvs

/-- The values of positional arguments, from left to right. -/
def evalPositional (env : Environment) : List Expr → Except Error (List Value)
  | [] => .ok []
  | e :: rest =>
    match eval env e with
    | .error fault => .error fault
    | .ok v =>
      match evalPositional env rest with
      | .error fault => .error fault
      | .ok vs => .ok (v :: vs)

/-- The values of keyword arguments, from left to right. -/
def evalKeywords (env : Environment) :
    List (String × Expr) → Except Error (List (String × Value))
  | [] => .ok []
  | (key, e) :: rest =>
    match eval env e with
    | .error fault => .error fault
    | .ok v =>
      match evalKeywords env rest with
      | .error fault => .error fault
      | .ok vs => .ok ((key, v) :: vs)

end

/-- The value of a source in an environment. -/
def evaluate (source : String) (env : Environment) : Except Error Value :=
  match parse source with
  | .error e => .error e
  | .ok e => e.eval env

end LiveDoc.Expr
