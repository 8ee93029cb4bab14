import Abacus.Decimal.Dyadic

/-!
# Binary operators

Six operators on floats. `apply` is plain floating-point arithmetic without error cases: a quotient
by zero is an infinity or NaN here, and it is the machine that refuses it.
-/
namespace Abacus

/-- The binary operators of expressions, `BinOpKind` by name. All of them take two floats and give
one. -/
inductive Operator where
  | add
  | subtract
  | multiply
  | divide
  | modulo
  | exponentiate
  deriving DecidableEq

namespace Operator

/-- Every operator once, in the order of `ALL`. -/
def all : List Operator :=
  [add, subtract, multiply, divide, modulo, exponentiate]

/-- The character an operator is written as, in sources and in formatted programs. -/
def symbol : Operator → Char
  | add => '+'
  | subtract => '-'
  | multiply => '*'
  | divide => '/'
  | modulo => '%'
  | exponentiate => '^'

/-- How tightly an operator binds: `^` before `*`, `/` and `%`, and these before `+` and `-`. All of
them group to the right, whatever their precedence. -/
def precedence : Operator → Nat
  | add | subtract => 1
  | multiply | divide | modulo => 2
  | exponentiate => 3

/-- The float arithmetic of an operator, without error cases. Powers are those of the C library; the
remainder is exact. -/
def apply (op : Operator) (left right : Float) : Float :=
  match op with
  | add => left + right
  | subtract => left - right
  | multiply => left * right
  | divide => left / right
  | modulo => Decimal.remainder left right
  | exponentiate => left.pow right

end Operator
end Abacus
