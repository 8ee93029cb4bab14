import Abacus.Operator

/-!
# Built-in functions

The functions that every program can call. Each binary operator and the negation have one of the
same effect, so that `a / b` and `divide(a, b)` are one thing.
-/
namespace Abacus

/-- The functions that a program can call without a definition. Their names cannot be defined again.
-/
inductive Builtin where
  | add
  | subtract
  | multiply
  | divide
  | modulo
  | exponentiate
  | negate
  | sqrt
  | log
  | ln
  | print
  deriving DecidableEq

namespace Builtin

/-- Every built-in function once, in the order of `ALL`; the checker makes their signatures in this
order. -/
def all : List Builtin :=
  [add, subtract, multiply, divide, modulo, exponentiate, negate, sqrt, log, ln, print]

/-- The name by which programs call a built-in function. -/
def name : Builtin → String
  | add => "add"
  | subtract => "subtract"
  | multiply => "multiply"
  | divide => "divide"
  | modulo => "modulo"
  | exponentiate => "exponentiate"
  | negate => "negate"
  | sqrt => "sqrt"
  | log => "log"
  | ln => "ln"
  | print => "print"

/-- How many arguments a built-in function takes; `call` refuses any other number. -/
def arity : Builtin → Nat
  | add | subtract | multiply | divide | modulo | exponentiate => 2
  | negate | sqrt | log | ln | print => 1

/-- The built-in function of a name, if there is one, as `lookup` finds it. Calls ask this before
they look among the functions of the program. -/
def ofName? (name : String) : Option Builtin :=
  all.find? fun b => b.name = name

/-- The function that does an operator's work, by `for_operator`. The machine runs it for the
operator, so that `a / b` fails as `divide(a, b)` does. -/
def ofOperator : Operator → Builtin
  | .add => add
  | .subtract => subtract
  | .multiply => multiply
  | .divide => divide
  | .modulo => modulo
  | .exponentiate => exponentiate

end Builtin
end Abacus
