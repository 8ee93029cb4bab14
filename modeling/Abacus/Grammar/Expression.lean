import Abacus.Grammar.Rule

/-!
# The grammar of expressions

    expression := term (("+" | "-") term)*
    term       := power (("*" | "/" | "%") power)*
    power      := value ("^" value)*
    value      := "(" expression ")" | "-" expression | number name | call | name | number
    call       := name "(" (expression ("," expression)*)? ")"

Chains group to the right: `1 - 2 - 3` is `1 - (2 - 3)`. A minus sign takes the longest expression
behind it. A number directly before a name multiplies it and binds tighter than every operator.
Behind an operator and behind the comma of an argument list the text has to go on.
-/
namespace Abacus.Rule

/-- The expression inside brackets, behind a minus sign or in an argument list, where `expression`
is used by itself. -/
def innerExpression : Rule Expr :=
  .inner .expression

/-- Nests a chain of operands to the right: the folding from the right at the end of `right_chain`.
-/
def nestRight (first : Expr) : List (Operator × Expr) → Expr
  | [] => first
  | (op, next) :: rest => .binary unnumbered op first (nestRight next rest)

/-- The operator that a symbol stands for between two operands. -/
def operator (s : Symbol) (op : Operator) : Rule Operator := do
  let _ ← symbol s
  pure op

/-- The operators of an expression: plus, or else minus. -/
def additive : Rule Operator :=
  (operator .plus .add).orElse (operator .minus .subtract)

/-- The operators of a term: times, or else division, or else the remainder. -/
def multiplicative : Rule Operator :=
  (operator .times .multiply).orElse
    ((operator .slash .divide).orElse (operator .percent .modulo))

def exponential : Rule Operator :=
  operator .caret .exponentiate

/-- An operator, if there is one, and the operand that then has to follow: one turn of the loop in
`right_chain`. -/
def chainLink (operand : Rule Expr) (operator : Rule Operator) (what : String) :
    Rule (Option (Operator × Expr)) := do
  match ← operator.optional with
  | none => pure none
  | some op =>
    let next ← operand.commit what
    pure (some (op, next))

/-- Operands with operators between them, by `right_chain`: the first operand, then links until no
operator follows, nested to the right. -/
def chain (operand : Rule Expr) (operator : Rule Operator) (what : String) : Rule Expr := do
  let first ← operand
  let rest ← (chainLink operand operator what).repeated
  pure (nestRight first rest)

/-- A comma, if there is one, and the argument that then has to follow. A comma with nothing behind
it ends the reading. -/
def nextArgument : Rule (Option Expr) := do
  match ← (symbol .comma).optional with
  | none => pure none
  | some _ =>
    let arg ← innerExpression.commit "argument"
    pure (some arg)

/-- The arguments of a call, at least one, by `arg_list`. That one calls itself behind a comma; here
it is a loop. -/
def arguments : Rule (List Expr) := do
  let first ← innerExpression
  let rest ← nextArgument.repeated
  pure (first :: rest)

/-- A name, and in brackets its arguments, if it has any. -/
def call : Rule Expr := do
  let name ← name.skip (symbol .openParen)
  let args ← arguments.optional
  let _ ← symbol .closeParen
  pure (.call unnumbered name (args.getD []))

/-- An expression in brackets, which leave no trace in the tree. -/
def grouped : Rule Expr :=
  ((symbol .openParen).skipLeft innerExpression).skip (symbol .closeParen)

/-- A minus sign and the longest expression behind it. -/
def negated : Rule Expr := do
  let operand ← (symbol .minus).skipLeft innerExpression
  pure (.negate unnumbered operand)

/-- A number directly before a name, which it multiplies. -/
def juxtaposed : Rule Expr := do
  let coefficient ← number
  let name ← name
  pure (.binary unnumbered .multiply coefficient (.var unnumbered name))

/-- What operators stand between. The six alternatives are tried in this order: a call before a
variable, since both start with a name, and a product before a number. -/
def value : Rule Expr :=
  .label "value" <|
    grouped.orElse <| negated.orElse <| juxtaposed.orElse <| call.orElse <| var.orElse number

def power : Rule Expr :=
  chain value exponential "power"

def term : Rule Expr :=
  chain power multiplicative "term"

def expression : Rule Expr :=
  chain term additive "expression"

end Abacus.Rule
