import Abacus.Builtin
import Abacus.Grammar.Expression

/-!
# The grammar of statements

    stmts     := (statement (newline statement)*)? newline?
    statement := define | assign | expression
    define    := name "(" (name ("," name)*)? ")" "=" ("{" newline stmts "}" | statement)
    assign    := name "=" expression

A statement list ends where no statement follows. The head of a definition is only known for one
behind its `=`; from there on the text has to go on as a definition, and its name must not be that
of a built-in function.
-/
namespace Abacus.Rule

/-- A name, an equals sign and the expression that the name is to stand for. -/
def assign : Rule Stmt := do
  let name ← name.skip (symbol .equals)
  let value ← expression
  pure (.assign unnumbered name value)

def param : Rule Param := do
  let name ← name
  pure { id := unnumbered, name }

/-- A comma, if there is one, and the parameter behind it. Without one the list is none, for it may
still be a list of arguments. -/
def nextParam : Rule (Option Param) := do
  match ← (symbol .comma).optional with
  | none => pure none
  | some _ =>
    let param ← param
    pure (some param)

/-- The parameters of a definition, at least one, by `param_list`. It fails softly, so that `f(x,
1)` can still be read as a call. -/
def params : Rule (List Param) := do
  let first ← param
  let rest ← nextParam.repeated
  pure (first :: rest)

/-- A line end, if there is one, and the statement behind it, if there is one: one turn of the loop
in `statements`. The line end is taken in either case. -/
def nextStatement (statement : Rule Stmt) : Rule (Option Stmt) := do
  match ← newline.optional with
  | none => pure none
  | some _ => statement.optional

/-- Statements with line ends between them, by `statements`; there may be none. -/
def statementList (statement : Rule Stmt) : Rule (List Stmt) := do
  match ← statement.optional with
  | none => pure []
  | some first =>
    let rest ← (nextStatement statement).repeated
    pure (first :: rest)

/-- The statement that is a body or stands in one, where `statement` is used by itself. -/
def innerStatement : Rule Stmt :=
  .inner .statement

/-- The body of a function in braces, by `block`: it starts on a new line and may be empty. -/
def bracedBody : Rule (List Stmt) :=
  (((symbol .openBrace).skipLeft newline).skipLeft (statementList innerStatement)).skip
    (symbol .closeBrace)

/-- The body of a function on the same line, which is one statement and has to be there. -/
def inlineBody : Rule (List Stmt) := do
  let stmt ← innerStatement.commit "function body"
  pure [stmt]

/-- The head of a definition up to its `=`, the `signature` in `define`. Until here all may still be
a call or an assignment. -/
def defineHead : Rule ((String × Text.Span) × List Param) := do
  let name ← spannedName.skip (symbol .openParen)
  let params ← params.optional
  let _ ← symbol .closeParen
  let _ ← symbol .equals
  pure (name, params.getD [])

/-- Refuses the name of a built-in function, by the check in the middle of `define`. -/
def ownName (name : String) (span : Text.Span) : Rule Unit :=
  match Builtin.ofName? name with
  | some _ => .fail (.redefinition name span)
  | none => .succeed ()

/-- A definition: its head, a name of its own, and a body in braces or on the line. -/
def define : Rule Stmt := do
  let ((name, span), params) ← defineHead
  let _ ← ownName name span
  let body ← bracedBody.orElse inlineBody
  pure (.define unnumbered name { id := unnumbered, params } unnumbered body)

def expressionStatement : Rule Stmt := do
  let e ← expression
  pure (.expr e)

/-- A definition, or else an assignment, or else an expression; the order matters, as all three can
start with a name. -/
def statement : Rule Stmt :=
  define.orElse <| assign.orElse expressionStatement

/-- The statements of a program, by `stmt_list`. -/
def stmts : Rule (List Stmt) :=
  statementList statement

end Abacus.Rule
