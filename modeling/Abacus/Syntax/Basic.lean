import Abacus.Operator

/-!
# Syntax trees

A program is a block of statements: definitions of functions, assignments and expressions. Every
node carries an id by which the passes that read a tree refer to it; the ids of a tree that was read
from text are the positions of its nodes in preorder.
-/
namespace Abacus

/-- The identity of a node of a tree. Passes that need to know something of a node keep it in a
table by its id. -/
abbrev NodeId := Nat

/-- The id of a node that has not been numbered yet. The rules of the grammar build trees of such
nodes. -/
def unnumbered : NodeId :=
  0

/-- Expressions: an `Expression` with its `ExprKind`, the id first in every constructor. -/
inductive Expr where
  /-- A literal. `source` is the text of one that was read, and nothing for one that was computed.
  -/
  | number (id : NodeId) (value : Float) (source : Option String)
  | var (id : NodeId) (name : String)
  /-- One operator between two operands; a longer chain nests in the right operand. -/
  | binary (id : NodeId) (op : Operator) (left right : Expr)
  | negate (id : NodeId) (operand : Expr)
  | call (id : NodeId) (name : String) (args : List Expr)

/-- A parameter of a definition, which is a node of its own. -/
structure Param where
  id : NodeId
  name : String
  deriving DecidableEq

/-- The parameters of a definition in order. Names may occur twice; the list is a node without a
vertex in the flow graph. -/
structure ParamList where
  id : NodeId
  params : List Param
  deriving DecidableEq

def ParamList.names (p : ParamList) : List String :=
  p.params.map Param.name

/-- Statements: a `Statement` with the fields of `Define` and `Assign` in place. An expression as a
statement is no node besides the expression. -/
inductive Stmt where
  /-- The body is a block of its own, with its own id. -/
  | define (id : NodeId) (name : String) (params : ParamList) (bodyId : NodeId) (body : List Stmt)
  | assign (id : NodeId) (name : String) (value : Expr)
  | expr (e : Expr)

/-- Statements in order, the `StmtList` of a program or of a function. Its value is that of its last
statement that has one. -/
structure Block where
  id : NodeId
  stmts : List Stmt

/-- A whole program, which is a node above its block. -/
structure Program where
  id : NodeId
  body : Block

/-- A definition on its own, as `degree` and `execute` take one; `Define.stmt` puts it back among
the statements. -/
structure Define where
  id : NodeId
  name : String
  params : ParamList
  body : Block

/-- The id of an expression's outermost node. -/
def Expr.id : Expr → NodeId
  | .number id _ _ => id
  | .var id _ => id
  | .binary id _ _ _ => id
  | .negate id _ => id
  | .call id _ _ => id

/-- The value of a literal, by `as_number`; an expression of any other form has none, even if it is
constant. -/
def Expr.value? : Expr → Option Float
  | .number _ value _ => some value
  | _ => none

/-- The id of a statement, which is that of its expression if it is one. -/
def Stmt.id : Stmt → NodeId
  | .define id _ _ _ _ => id
  | .assign id _ _ => id
  | .expr e => e.id

/-- The definition that a statement is, if it is one. -/
def Stmt.define? : Stmt → Option Define
  | .define id name params bodyId body =>
    some { id, name, params, body := { id := bodyId, stmts := body } }
  | _ => none

def Define.stmt (d : Define) : Stmt :=
  .define d.id d.name d.params d.body.id d.body.stmts

/-- The statements of a program's block, those at the top level. -/
def Program.stmts (p : Program) : List Stmt :=
  p.body.stmts

/-- The first definition at the top level, by `first_define`: the function that a degree is asked
of, or that is called on its own. -/
def Program.define? (p : Program) : Option Define :=
  p.stmts.findSome? Stmt.define?

end Abacus
