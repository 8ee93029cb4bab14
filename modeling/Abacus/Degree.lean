import Abacus.Code.Compile
import Abacus.Machine.Run

/-!
# The degree of a function

How often the parameter of a one-parameter function is multiplied into its value: a bound on the
degree of the polynomial that the body computes.

* a number has degree zero, the parameter one, a variable that of what was assigned to it;
* a product adds degrees, a quotient and a remainder subtract them;
* a sum and a difference have the degree of greater magnitude, the right one if they are equal;
* a power multiplies the degree of its base by the value of its exponent, which has to be constant;
* a negation has the degree of its operand.

Everything else has no degree, which is written NaN and passed on. The degree of a body is the
magnitude of that of its last statement; a statement that is no expression has none.
-/
namespace Abacus

/-- Why a function has no degree: it does not have exactly one parameter. -/
inductive DegreeError where
  | arity (found : Nat)
  deriving DecidableEq

def DegreeError.message : DegreeError → String
  | arity found =>
    s!"can only determine the degree of functions with 1 input variable, found {found}"

namespace Degree

/-- The degree of what has none, a NaN. -/
def none : Float :=
  0 / 0

/-- The value of an expression that the machine runs without variables and without a limit; none if
it fails. It is `constant_value`. -/
def constantValue (e : Expr) : Float :=
  match (e.compile.run {} Option.none).result with
  | .ok value => value
  | .error _ => none

/-- The degree of a sum or a difference. Of equal magnitudes the right one counts, so that it is not
the same from both sides if they have opposite signs. -/
def ofSum (left right : Float) : Float :=
  if left.isNaN || right.isNaN then none
  else if left.abs > right.abs then left
  else right

/-- The degree of a power, whose exponent is evaluated only if its own degree is zero. An exponent
may still fail there, and then the power has no degree. -/
def ofPower (left right : Float) (exponent : Expr) : Float :=
  if left.isNaN || right != 0 then none else left * constantValue exponent

/-- The degree of an expression, given those of the variables: `expression` of `Analysis`. A call
has none, even of a function that has one. -/
def ofExpr (degrees : Table String Float) : Expr → Float
  | .number _ _ _ => 0
  | .var _ name => (degrees.get? name).getD none
  | .negate _ operand => ofExpr degrees operand
  | .call _ _ _ => none
  | .binary _ op left right =>
    let l := ofExpr degrees left
    let r := ofExpr degrees right
    match op with
    | .multiply => l + r
    | .divide | .modulo => l - r
    | .add | .subtract => ofSum l r
    | .exponentiate => ofPower l r right

/-- The degree of the last statement, or `last` if there is no statement: `stmt_list` and
`statement` of `Analysis`. Assignments on the way change what is known of the variables, the
parameter among them. -/
def ofStmts (degrees : Table String Float) (last : Float) : List Stmt → Float
  | [] => last
  | .assign _ name value :: rest =>
    ofStmts (degrees.insert name (ofExpr degrees value)) none rest
  | .expr e :: rest => ofStmts degrees (ofExpr degrees e) rest
  | .define _ _ _ _ _ :: rest => ofStmts degrees none rest

end Degree

/-- The degree of a function in its one parameter, which `degree` gives: never negative, and NaN if
there is none. -/
def Define.degree (d : Define) : Except DegreeError Float :=
  match d.params.params with
  | [input] =>
    .ok (Degree.ofStmts (Table.empty.insert input.name 1) Degree.none d.body.stmts).abs
  | params => .error (.arity params.length)

end Abacus
