import Abacus.Code.Basic
import Abacus.Table

/-!
# What the machine works with

A frame is what one call owns: its variables and the functions it has defined. It starts with the
parameters and no function, and sees nothing of its caller's.

A runtime error is why a run of code fails. Code of a well-formed program fails for the first five
reasons only; `malformed` is for code that takes from an empty stack or finds an operand of the
wrong kind.
-/
namespace Abacus

/-- A value on the stack, a `StackValue`. Only numbers are results; names and blocks are there for
the operation that follows. -/
inductive Value where
  | number (value : Float)
  | name (name : String)
  | block (code : Code)

/-- How errors name the kind of a value. -/
def Value.kind : Value → String
  | number _ => "number"
  | name _ => "name"
  | block _ => "block"

/-- A function of a program as the machine knows it: the names of its parameters in order, and its
code. It holds no variables of the place where it was defined. -/
structure Closure where
  params : List String
  body : Code

/-- The variables of one frame and their values. They are numbers always; a function cannot be
assigned. -/
abbrev Locals := Table String Float

/-- What one call owns: its variables, and the functions it has defined so far. -/
structure Frame where
  locals : Locals
  functions : Table String Closure

namespace Frame

/-- A frame with these variables and no function, by `new`. -/
def ofLocals (locals : Locals) : Frame :=
  { locals, functions := {} }

/-- The frame of a call, in which the parameters stand for the arguments; of two parameters of one
name the last one counts. -/
def ofCall (params : List String) (args : List Float) : Frame :=
  .ofLocals (.ofList (params.zip args))

/-- The frame with a variable set, which takes the place of one of the same name. It is `set_local`.
-/
def setLocal (f : Frame) (name : String) (value : Float) : Frame :=
  { f with locals := f.locals.insert name value }

/-- The frame with one more function, which takes the place of one of the same name. -/
def define (f : Frame) (name : String) (closure : Closure) : Frame :=
  { f with functions := f.functions.insert name closure }

end Frame

/-! ## Errors -/

/-- Why a run fails. The error goes through every call that is under way, unchanged. -/
inductive RuntimeError where
  | divisionByZero
  | unknownFunction (name : String)
  | unknownVariable (name : String)
  | arity (name : String) (expected found : Nat)
  | callDepthExceeded (limit : Nat)
  | malformed (detail : String)
  deriving DecidableEq

/-- The text of an error, by its `Display`. -/
def RuntimeError.message : RuntimeError → String
  | divisionByZero => "division by zero"
  | unknownFunction name => s!"unknown function '{name}'"
  | unknownVariable name => s!"unknown variable '{name}'"
  | arity name expected found => s!"function '{name}' expects {expected} argument(s), got {found}"
  | callDepthExceeded limit => s!"maximum call depth of {limit} exceeded"
  | malformed detail => s!"malformed program: {detail}"

end Abacus
