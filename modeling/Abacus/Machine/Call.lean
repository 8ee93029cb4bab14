import Abacus.Builtin
import Abacus.Event
import Abacus.Machine.Basic

/-!
# Calls

A name is looked up among the built-in functions first and then in the frame. A call of a function
of the program is refused for one of three reasons, tried in this order: there is no such function,
the number of arguments is wrong, the call would nest too deeply.
-/
namespace Abacus

/-- Calls a built-in function, by `call` of `Builtin`. Only a wrong number of arguments and a zero
divisor are errors; printing is an event. -/
def Builtin.call (b : Builtin) (args : List Float) : Traced RuntimeError Float :=
  match b, args with
  | .add, [x, y] => pure (Operator.apply .add x y)
  | .subtract, [x, y] => pure (Operator.apply .subtract x y)
  | .multiply, [x, y] => pure (Operator.apply .multiply x y)
  | .divide, [x, y] =>
    if y == 0 then Traced.fail .divisionByZero else pure (Operator.apply .divide x y)
  | .modulo, [x, y] => pure (Operator.apply .modulo x y)
  | .exponentiate, [x, y] => pure (Operator.apply .exponentiate x y)
  | .negate, [x] => pure (-x)
  | .sqrt, [x] => pure x.sqrt
  | .log, [x] => pure x.log10
  | .ln, [x] => pure x.log
  | .print, [x] => do
    Traced.emit (.print x)
    pure x
  | _, _ => Traced.fail (.arity b.name b.arity args.length)

/-- How the code of a function is run in the frame of a call. -/
abbrev Enter :=
  Code → Frame → Traced RuntimeError Float

/-- Has the depth of calls reached its limit? Without a limit it never has. -/
def atLimit (limit : Option Nat) (depth : Nat) : Bool :=
  match limit with
  | some n => n ≤ depth
  | none => false

/-- Calls a function of a program from `depth` calls deep: the second half of `call` of the
`Machine`, from the check of the arguments on. What enters is reported first. -/
def Closure.call (limit : Option Nat) (depth : Nat)
    (enter : Enter) (name : String) (closure : Closure) (args : List Float) :
    Traced RuntimeError Float :=
  if closure.params.length ≠ args.length then
    Traced.fail (.arity name closure.params.length args.length)
  else if atLimit limit depth then
    Traced.fail (.callDepthExceeded (limit.getD 0))
  else do
    Traced.emit (.call name (depth + 1))
    enter closure.body (.ofCall closure.params args)

/-- Calls whatever function a name means in a frame, by `call` of the `Machine`: a built-in one, or
else one that the frame has defined. -/
def Frame.call (limit : Option Nat) (depth : Nat)
    (enter : Enter) (frame : Frame) (name : String) (args : List Float) :
    Traced RuntimeError Float :=
  match Builtin.ofName? name with
  | some b => b.call args
  | none =>
    match frame.functions.get? name with
    | some closure => closure.call limit depth enter name args
    | none => Traced.fail (.unknownFunction name)

end Abacus
