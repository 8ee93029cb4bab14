import Abacus.Syntax.Node

/-!
# Constant folding

An operator whose operands have become literals is replaced by a literal of its value, operands
first. Only finite values fold: a quotient by zero is an error when it runs and must stay one, and
infinities and NaN have no literal. A folded literal has no source text and a fresh id; all other
nodes keep their ids, so a second pass finds nothing to do.

Fresh ids are drawn from a supply that starts above the ids of the tree. The number of ids drawn is
the number of nodes folded.
-/
namespace Abacus

/-- The value of an operator between two literals, finite or not: the first half of `fold`. -/
def Operator.fold? (op : Operator) (left right : Expr) : Option Float :=
  match left.value?, right.value? with
  | some x, some y => some (op.apply x y)
  | _, _ => none

/-- The literal of a finite value, with the next id; otherwise the node as it is. An id is drawn
exactly where `folded` is counted up. -/
def literalOr (next : NodeId) (value : Option Float) (kept : Expr) : Expr × NodeId :=
  match value with
  | some v => if v.isFinite then (.number next v none, next + 1) else (kept, next)
  | none => (kept, next)

mutual

/-- Folds an expression, operands first, and also returns the next id that is left: `expression` of
the `Folder`. -/
def Expr.foldFrom (next : NodeId) : Expr → Expr × NodeId
  | .number id value source => (.number id value source, next)
  | .var id name => (.var id name, next)
  | .binary id op left right =>
    let (left, next) := left.foldFrom next
    let (right, next) := right.foldFrom next
    literalOr next (op.fold? left right) (.binary id op left right)
  | .negate id operand =>
    let (operand, next) := operand.foldFrom next
    literalOr next (operand.value?.map (- ·)) (.negate id operand)
  | .call id name args =>
    let (args, next) := Expr.foldAllFrom next args
    (.call id name args, next)

/-- Folds arguments from the first to the last, each with the ids that the one before it left. -/
def Expr.foldAllFrom (next : NodeId) : List Expr → List Expr × NodeId
  | [] => ([], next)
  | e :: rest =>
    let (e, next) := e.foldFrom next
    let (rest, next) := Expr.foldAllFrom next rest
    (e :: rest, next)

end

mutual

/-- Folds the expressions in a statement, those in the body of a definition included: `statement` of
the `Folder`. Statements keep their ids. -/
def Stmt.foldFrom (next : NodeId) : Stmt → Stmt × NodeId
  | .define id name params bodyId body =>
    let (body, next) := Stmt.foldAllFrom next body
    (.define id name params bodyId body, next)
  | .assign id name value =>
    let (value, next) := value.foldFrom next
    (.assign id name value, next)
  | .expr e =>
    let (e, next) := e.foldFrom next
    (.expr e, next)

/-- Folds statements in order, by `stmt_list` of the `Folder`. -/
def Stmt.foldAllFrom (next : NodeId) : List Stmt → List Stmt × NodeId
  | [] => ([], next)
  | s :: rest =>
    let (s, next) := s.foldFrom next
    let (rest, next) := Stmt.foldAllFrom next rest
    (s :: rest, next)

end

/-- An expression on its own, folded, by `optimize_node`. Ids are drawn from above those of the
expression. -/
def Expr.fold (e : Expr) : Expr :=
  (e.foldFrom (freshId e.nodeIds)).1

namespace Program

/-- Folds a program with ids from `next` on. The ids of the program and of its block stay. -/
def foldFrom (next : NodeId) (p : Program) : Program × NodeId :=
  let (stmts, next) := Stmt.foldAllFrom next p.stmts
  ({ p with body := { p.body with stmts } }, next)

/-- A program with its constants folded, by `optimize`. -/
def fold (p : Program) : Program :=
  (p.foldFrom (freshId p.nodeIds)).1

/-- How many nodes of a program fold: the `folded` that `optimize` reports. -/
def foldCount (p : Program) : Nat :=
  (p.foldFrom (freshId p.nodeIds)).2 - freshId p.nodeIds

end Program
end Abacus
