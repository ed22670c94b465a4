import LiveDoc.Error
import LiveDoc.Store

/-!
# Functions and names

A `Function` has a name, declared parameters, and a meaning on bound arguments. A `Namespace`
holds functions, where the first registration of a name wins, and globals, where the last one
wins. An `Environment` is what expressions see of it: functions hide globals of the same name.

* `Function.bind` puts positional and keyword arguments into the declared parameters. A parameter
  that was passed is told apart from one that was not, whatever its value is.
* `Namespace.export` makes an environment, which nothing done to the namespace later changes.
-/

namespace LiveDoc

/-- A declared parameter. Without a default it is required. -/
structure Parameter where
  name : String
  default : Option Value
  deriving DecidableEq

/-- Arguments bound to the parameters of a function. -/
structure Arguments where
  function : String
  values : Store Value
  deriving DecidableEq

namespace Arguments

/-- The value of a parameter. -/
def value (args : Arguments) (parameter : String) : Except Error Value :=
  match args.values.get? parameter with
  | some v => .ok v
  | none => .error (.invalidArguments args.function (.noParameter parameter))

/-- The value of a parameter, read as one type. -/
def valueAs {α : Type} (args : Arguments) (parameter : String) (expected : ValueType)
    (read : Value → Option α) : Except Error α :=
  match args.value parameter with
  | .error e => .error e
  | .ok v =>
    match read v with
    | some a => .ok a
    | none => .error (.invalidArgumentType args.function parameter expected v.type)

/-- The text passed for a parameter. -/
def string (args : Arguments) (parameter : String) : Except Error String :=
  args.valueAs parameter .string Value.string?

/-- The truth value passed for a parameter. -/
def bool (args : Arguments) (parameter : String) : Except Error Bool :=
  args.valueAs parameter .boolean Value.bool?

/-- The integer passed for a parameter. -/
def int (args : Arguments) (parameter : String) : Except Error Int64 :=
  args.valueAs parameter .integer Value.int?

end Arguments

/-- A function that templates can call. -/
structure Function where
  name : String
  parameters : List Parameter
  meaning : Arguments → Except Error Value

namespace Function

/-- One slot for each parameter, filled by the positional arguments from the left. -/
def positionalSlots (parameters : List Parameter) (positional : List Value) :
    List (Option Value) :=
  positional.map some ++ List.replicate (parameters.length - positional.length) none

/-- Puts keyword arguments into the slots, from left to right. -/
def fillSlots (parameters : List Parameter) : List (String × Value) → List (Option Value) →
    Except ArgumentFault (List (Option Value))
  | [], slots => .ok slots
  | (name, value) :: rest, slots =>
    match parameters.findIdx? (·.name = name) with
    | none => .error (.unexpectedKeyword name)
    | some i =>
      if (slots[i]?.bind id).isSome then .error (.repeated name)
      else fillSlots parameters rest (slots.set i (some value))

/-- Gives every parameter the value of its slot or its default. -/
def collect : List Parameter → List (Option Value) → Store Value →
    Except ArgumentFault (Store Value)
  | p :: parameters, slot :: slots, values =>
    match slot.or p.default with
    | none => .error (.missing p.name)
    | some v => collect parameters slots (values.put p.name v)
  | _, _, values => .ok values

/-- The values of the declared parameters, or the first fault: too many positional arguments, then
a fault in a keyword, then a parameter left without a value. -/
def bindValues (parameters : List Parameter) (positional : List Value)
    (keywords : List (String × Value)) : Except ArgumentFault (Store Value) :=
  if positional.length > parameters.length then
    .error (.tooMany parameters.length positional.length)
  else
    match fillSlots parameters keywords (positionalSlots parameters positional) with
    | .error fault => .error fault
    | .ok slots => collect parameters slots []

/-- Binds arguments to the declared parameters. -/
def bind (f : Function) (positional : List Value) (keywords : List (String × Value)) :
    Except Error Arguments :=
  match bindValues f.parameters positional keywords with
  | .ok values => .ok ⟨f.name, values⟩
  | .error fault => .error (.invalidArguments f.name fault)

/-- Binds arguments and applies the meaning. -/
def call (f : Function) (positional : List Value) (keywords : List (String × Value)) :
    Except Error Value :=
  match f.bind positional keywords with
  | .ok args => f.meaning args
  | .error e => .error e

end Function

/-- What a name stands for. -/
inductive Binding where
  | function (f : Function)
  | value (v : Value)

/-- What expressions see: a snapshot of a namespace. -/
structure Environment where
  bindings : Store Binding

namespace Environment

/-- Nothing bound. -/
def empty : Environment := ⟨[]⟩

/-- What a name stands for. -/
def lookup (env : Environment) (name : String) : Option Binding := env.bindings.get? name

/-- Whether a name stands for a function. -/
def hasFunction (env : Environment) (name : String) : Bool :=
  match env.lookup name with
  | some (.function _) => true
  | _ => false

/-- Binds a global in this environment only. A function of the same name stays. -/
def insertGlobal (env : Environment) (name : String) (value : Value) : Environment :=
  if env.hasFunction name then env else ⟨env.bindings.put name (.value value)⟩

/-- The bound names in ascending order. -/
def names (env : Environment) : List String := env.bindings.sortedNames

end Environment

/-- The functions and globals that templates can use. -/
structure Namespace where
  functions : Store Function
  globals : Store Value

namespace Namespace

/-- Nothing registered. -/
def empty : Namespace := ⟨[], []⟩

/-- The function registered under a name. -/
def function? (ns : Namespace) (name : String) : Option Function := ns.functions.get? name

/-- Registers a function under a name, which becomes its own. A name can be taken once. -/
def registerAs (ns : Namespace) (name : String) (f : Function) : Except Error Namespace :=
  if (ns.function? name).isSome then .error (.duplicateRegistration name)
  else .ok { ns with functions := ns.functions.put name { f with name := name } }

/-- Registers a function under its own name. -/
def register (ns : Namespace) (f : Function) : Except Error Namespace := ns.registerAs f.name f

/-- Binds a global. The last value wins. -/
def addGlobal (ns : Namespace) (name : String) (value : Value) : Namespace :=
  { ns with globals := ns.globals.put name value }

/-- Whether a name is taken, by a function or a global. -/
def contains (ns : Namespace) (name : String) : Bool :=
  (ns.functions.get? name).isSome || (ns.globals.get? name).isSome

/-- The names of the registered functions in ascending order. -/
def functionNames (ns : Namespace) : List String := ns.functions.sortedNames

/-- The environment of everything registered so far. Functions hide globals. -/
def «export» (ns : Namespace) : Environment :=
  ⟨ns.functions.foldl (fun bindings (name, f) => bindings.put name (.function f))
    (ns.globals.map fun (name, v) => (name, .value v))⟩

end Namespace

end LiveDoc
