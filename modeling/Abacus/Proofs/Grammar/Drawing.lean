import Abacus.Session

/-!
# Reading with a supply of ids

A program that is read gets its ids when the reading is over, by position. Here is the same reading
with the ids drawn along the way, from one supply that also serves every other reading: a node gets
the next id at the moment it is made, that is behind its parts. An alternative that is given up has
drawn ids too, and these stay drawn; folding goes on where the reading ended.
-/
namespace Abacus

/-- From the next id and the tokens that are left, what reading comes to and the next id then. -/
def Drawing (α : Type) : Type :=
  NodeId → List Token → Outcome α × NodeId

namespace Drawing

instance : Monad Drawing where
  pure a := fun next tokens => ({ result := .ok a, rest := tokens }, next)
  bind first f := fun next tokens =>
    match first next tokens with
    | ({ result := .ok a, rest }, next) => f a next rest
    | ({ result := .error e, rest }, next) => ({ result := .error e, rest }, next)

/-- Draws an id. -/
def fresh : Drawing NodeId := fun next tokens =>
  ({ result := .ok next, rest := tokens }, next + 1)

section
variable {α β : Type}

/-- A rule that makes no nodes, and has no phrases inside that would. -/
def ofRule (rule : Rule α) : Drawing α := fun next tokens =>
  (rule.run (Rule.innerTo 0) tokens, next)

def skip (first : Drawing α) (second : Drawing β) : Drawing α := do
  let a ← first
  let _ ← second
  pure a

def skipLeft (first : Drawing α) (second : Drawing β) : Drawing β := do
  let _ ← first
  second

/-! The tokens go back to where they were, the supply does not. -/

def orElse (first second : Drawing α) : Drawing α := fun next tokens =>
  match first next tokens with
  | ({ result := .ok a, rest }, next) => ({ result := .ok a, rest }, next)
  | ({ result := .error e, rest }, next) =>
    if e.committed then ({ result := .error e, rest }, next) else second next tokens

def label (name : String) (drawing : Drawing α) : Drawing α := fun next tokens =>
  match drawing next tokens with
  | ({ result := .ok a, rest }, next) => ({ result := .ok a, rest }, next)
  | ({ result := .error e, rest }, next) => ({ result := .error (e.relabel name), rest }, next)

def commit (name : String) (drawing : Drawing α) : Drawing α := fun next tokens =>
  match drawing next tokens with
  | ({ result := .ok a, rest }, next) => ({ result := .ok a, rest }, next)
  | ({ result := .error e, rest }, next) =>
    if e.committed then ({ result := .error e, rest }, next)
    else ({ result := .error (SyntaxError.unexpected name tokens).commit, rest := tokens }, next)

def optional (drawing : Drawing α) : Drawing (Option α) := fun next tokens =>
  match drawing next tokens with
  | ({ result := .ok a, rest }, next) => ({ result := .ok (some a), rest }, next)
  | ({ result := .error e, rest }, next) =>
    if e.committed then ({ result := .error e, rest }, next)
    else ({ result := .ok none, rest := tokens }, next)

def repeatStep (step : Drawing (Option α)) : (turns : Nat) → Drawing (List α)
  | 0 => pure []
  | turns + 1 => do
    match ← step with
    | none => pure []
    | some a =>
      let as ← repeatStep step turns
      pure (a :: as)

def repeated (step : Drawing (Option α)) : Drawing (List α) := fun next tokens =>
  repeatStep step (tokens.length + 1) next tokens

end

/-- How the phrases inside a phrase are read. -/
abbrev Inner :=
  (phrase : Phrase) → Drawing phrase.Tree

/-! ## Expressions -/

/-- The value of one number and its text. -/
def literal : Rule (Float × String) :=
  .token "number" fun t =>
    match t.kind with
    | .number value source => some (value, source)
    | _ => none

def number : Drawing Expr := do
  let (value, source) ← ofRule literal
  let id ← fresh
  pure (.number id value (some source))

def var : Drawing Expr := do
  let name ← ofRule .name
  let id ← fresh
  pure (.var id name)

/-- The coefficient has drawn its id even if no name is behind it. -/
def juxtaposed : Drawing Expr := do
  let coefficient ← number
  let name ← ofRule .name
  let var ← fresh
  let id ← fresh
  pure (.binary id .multiply coefficient (.var var name))

/-- The innermost operator, which is the last, draws first. -/
def nestRight (first : Expr) : List (Operator × Expr) → Drawing Expr
  | [] => pure first
  | (op, next) :: rest => do
    let right ← nestRight next rest
    let id ← fresh
    pure (.binary id op first right)

def chainLink (operand : Drawing Expr) (operator : Rule Operator) (what : String) :
    Drawing (Option (Operator × Expr)) := do
  match ← ofRule operator.optional with
  | none => pure none
  | some op =>
    let next ← operand.commit what
    pure (some (op, next))

def chain (operand : Drawing Expr) (operator : Rule Operator) (what : String) : Drawing Expr := do
  let first ← operand
  let rest ← (chainLink operand operator what).repeated
  nestRight first rest

section
variable (inner : Inner)

def innerExpression : Drawing Expr :=
  inner .expression

def nextArgument : Drawing (Option Expr) := do
  match ← ofRule (Rule.symbol .comma).optional with
  | none => pure none
  | some _ =>
    let arg ← (innerExpression inner).commit "argument"
    pure (some arg)

def arguments : Drawing (List Expr) := do
  let first ← innerExpression inner
  let rest ← (nextArgument inner).repeated
  pure (first :: rest)

def call : Drawing Expr := do
  let name ← ofRule (Rule.name.skip (.symbol .openParen))
  let args ← (arguments inner).optional
  let _ ← ofRule (.symbol .closeParen)
  let id ← fresh
  pure (.call id name (args.getD []))

def grouped : Drawing Expr :=
  ((ofRule (.symbol .openParen)).skipLeft (innerExpression inner)).skip (ofRule (.symbol .closeParen))

def negated : Drawing Expr := do
  let operand ← (ofRule (.symbol .minus)).skipLeft (innerExpression inner)
  let id ← fresh
  pure (.negate id operand)

def value : Drawing Expr :=
  .label "value" <|
    (grouped inner).orElse <| (negated inner).orElse <| juxtaposed.orElse <|
      (call inner).orElse <| var.orElse number

def power : Drawing Expr :=
  chain (value inner) .exponential "power"

def term : Drawing Expr :=
  chain (power inner) .multiplicative "term"

def expression : Drawing Expr :=
  chain (term inner) .additive "expression"

/-! ## Statements -/

def assign : Drawing Stmt := do
  let name ← ofRule (Rule.name.skip (.symbol .equals))
  let value ← expression inner
  let id ← fresh
  pure (.assign id name value)

/-- A parameter has drawn its id even if the list turns out to be one of arguments. -/
def param : Drawing Param := do
  let name ← ofRule .name
  let id ← fresh
  pure { id, name }

def nextParam : Drawing (Option Param) := do
  match ← ofRule (Rule.symbol .comma).optional with
  | none => pure none
  | some _ =>
    let param ← param
    pure (some param)

def params : Drawing (List Param) := do
  let first ← param
  let rest ← nextParam.repeated
  pure (first :: rest)

def nextStatement (statement : Drawing Stmt) : Drawing (Option Stmt) := do
  match ← ofRule Rule.newline.optional with
  | none => pure none
  | some _ => statement.optional

def statementList (statement : Drawing Stmt) : Drawing (List Stmt) := do
  match ← statement.optional with
  | none => pure []
  | some first =>
    let rest ← (nextStatement statement).repeated
    pure (first :: rest)

/-- Statements, and the list of them. -/
def block (statements : Drawing (List Stmt)) : Drawing Block := do
  let stmts ← statements
  let id ← fresh
  pure { id, stmts }

def innerStatement : Drawing Stmt :=
  inner .statement

/-- The list is made before the brace behind it is read. -/
def bracedBody : Drawing Block :=
  ((ofRule ((Rule.symbol .openBrace).skipLeft .newline)).skipLeft
    (block (statementList (innerStatement inner)))).skip (ofRule (.symbol .closeBrace))

def inlineBody : Drawing Block :=
  block do
    let stmt ← (innerStatement inner).commit "function body"
    pure [stmt]

def defineHead : Drawing ((String × Text.Span) × List Param) := do
  let name ← ofRule (Rule.spannedName.skip (.symbol .openParen))
  let params ← params.optional
  let _ ← ofRule (.symbol .closeParen)
  let _ ← ofRule (.symbol .equals)
  pure (name, params.getD [])

/-- The parameter list is made behind the body. -/
def define : Drawing Stmt := do
  let ((name, span), params) ← defineHead
  let _ ← ofRule (.ownName name span)
  let body ← (bracedBody inner).orElse (inlineBody inner)
  let paramsId ← fresh
  let id ← fresh
  pure (.define id name { id := paramsId, params } body.id body.stmts)

def expressionStatement : Drawing Stmt := do
  let e ← expression inner
  pure (.expr e)

def statement : Drawing Stmt :=
  (define inner).orElse <| (assign inner).orElse (expressionStatement inner)

def program : Drawing Program := do
  let body ← block (statementList (statement inner))
  let id ← fresh
  pure { id, body }

def ofPhrase : (phrase : Phrase) → Drawing phrase.Tree
  | .expression => expression inner
  | .statement => statement inner

end

/-- Reads inner phrases that nest at most `depth` deep. -/
def innerTo : (depth : Nat) → Inner
  | 0, _ => fun next tokens => ({ result := .error (.unexpected "value" tokens), rest := tokens }, next)
  | depth + 1, phrase => ofPhrase (innerTo depth) phrase

end Drawing

/-- The program that a token list is, with ids from `next` on, and the next id then. -/
def Program.ofTokensFrom (next : NodeId) (tokens : List Token) : Except SyntaxError Program × NodeId :=
  match Drawing.program (Drawing.innerTo tokens.length) next tokens with
  | ({ result := .error e, .. }, next) => (.error e, next)
  | ({ result := .ok p, rest := [] }, next) => (.ok p, next)
  | ({ result := .ok _, rest := t :: rest }, next) =>
    (.error (.unexpected "newline or end of input" (t :: rest)), next)

/-- The program of a source, with ids from `next` on, and the next id then. -/
def parseFrom (next : NodeId) (source : String) (fold : Bool) : Except Failure Program × NodeId :=
  match tokenize source with
  | .error e => (.error (.lexical e), next)
  | .ok tokens =>
    match Program.ofTokensFrom next tokens with
    | (.error e, next) => (.error (.grammatical e), next)
    | (.ok p, next) =>
      if fold then (.ok (p.foldFrom next).1, (p.foldFrom next).2) else (.ok p, next)

end Abacus
