import Abacus.Syntax.Basic

/-!
# The nodes of a tree

`nodeIds` lists the ids of a tree in preorder: a program, its block, the statements in order; a
definition, its parameter list, each parameter, its block, the statements of that; an assignment or
an operator before its operands; a call before its arguments. `Program.numbered` gives every node
its position in this list as its id, so that the ids of a numbered program are all different.
-/
namespace Abacus

/-! ## Ids in preorder -/

mutual

/-- The ids of an expression in preorder, each operator before its operands and each call before its
arguments. -/
def Expr.nodeIds : Expr → List NodeId
  | .number id _ _ => [id]
  | .var id _ => [id]
  | .binary id _ left right => id :: (left.nodeIds ++ right.nodeIds)
  | .negate id operand => id :: operand.nodeIds
  | .call id _ args => id :: Expr.nodeIdsAll args

/-- The ids of expressions that follow each other, as arguments do. -/
def Expr.nodeIdsAll : List Expr → List NodeId
  | [] => []
  | e :: rest => e.nodeIds ++ Expr.nodeIdsAll rest

end

/-- The ids of a parameter list: its own, then one for each parameter. -/
def ParamList.nodeIds (p : ParamList) : List NodeId :=
  p.id :: p.params.map Param.id

mutual

/-- The ids of a statement in preorder. A definition comes before its parameters, and these before
the block that is its body. -/
def Stmt.nodeIds : Stmt → List NodeId
  | .define id _ params bodyId body => id :: (params.nodeIds ++ bodyId :: Stmt.nodeIdsAll body)
  | .assign id _ value => id :: value.nodeIds
  | .expr e => e.nodeIds

def Stmt.nodeIdsAll : List Stmt → List NodeId
  | [] => []
  | s :: rest => s.nodeIds ++ Stmt.nodeIdsAll rest

end

def Block.nodeIds (b : Block) : List NodeId :=
  b.id :: Stmt.nodeIdsAll b.stmts

/-- The ids of a program in preorder, two more than its statements have. -/
def Program.nodeIds (p : Program) : List NodeId :=
  p.id :: p.body.nodeIds

/-- The first id above all the given ones, which no node of their tree has: where `fresh` would go
on behind that tree. -/
def freshId (ids : List NodeId) : NodeId :=
  ids.foldr (fun id bound => max (id + 1) bound) 0

/-! ## Numbering

Each function numbers from `next` on and also returns the first id it did not use. -/

mutual

/-- The expression with its nodes numbered in preorder from `next` on. -/
def Expr.numberFrom (next : NodeId) : Expr → Expr × NodeId
  | .number _ value source => (.number next value source, next + 1)
  | .var _ name => (.var next name, next + 1)
  | .binary _ op left right =>
    let (left, afterLeft) := left.numberFrom (next + 1)
    let (right, afterRight) := right.numberFrom afterLeft
    (.binary next op left right, afterRight)
  | .negate _ operand =>
    let (operand, after) := operand.numberFrom (next + 1)
    (.negate next operand, after)
  | .call _ name args =>
    let (args, after) := Expr.numberAllFrom (next + 1) args
    (.call next name args, after)

def Expr.numberAllFrom (next : NodeId) : List Expr → List Expr × NodeId
  | [] => ([], next)
  | e :: rest =>
    let (e, after) := e.numberFrom next
    let (rest, afterRest) := Expr.numberAllFrom after rest
    (e :: rest, afterRest)

end

/-- The parameter list with its own number first and then those of its parameters. -/
def ParamList.numberFrom (next : NodeId) (p : ParamList) : ParamList × NodeId :=
  ({ id := next, params := p.params.mapIdx fun i param => { param with id := next + 1 + i } },
    next + 1 + p.params.length)

mutual

/-- The statement with its nodes numbered in preorder from `next` on. -/
def Stmt.numberFrom (next : NodeId) : Stmt → Stmt × NodeId
  | .define _ name params _ body =>
    let (params, bodyId) := params.numberFrom (next + 1)
    let (body, after) := Stmt.numberAllFrom (bodyId + 1) body
    (.define next name params bodyId body, after)
  | .assign _ name value =>
    let (value, after) := value.numberFrom (next + 1)
    (.assign next name value, after)
  | .expr e =>
    let (e, after) := e.numberFrom next
    (.expr e, after)

def Stmt.numberAllFrom (next : NodeId) : List Stmt → List Stmt × NodeId
  | [] => ([], next)
  | s :: rest =>
    let (s, after) := s.numberFrom next
    let (rest, afterRest) := Stmt.numberAllFrom after rest
    (s :: rest, afterRest)

end

/-- The program of these statements, its nodes numbered in preorder. The ids that `fresh` hands out
are not these, but they are just as different from each other. -/
def Program.ofStmts (stmts : List Stmt) : Program :=
  { id := 0, body := { id := 1, stmts := (Stmt.numberAllFrom 2 stmts).1 } }

/-- The same program with its nodes numbered in preorder, whatever ids they had. -/
def Program.numbered (p : Program) : Program :=
  .ofStmts p.stmts

end Abacus
