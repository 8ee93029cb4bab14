import Abacus.Syntax.Basic

/-!
# Trees that look alike

Two trees are alike if they have the same shape, names and literals; ids do not matter. Values of
literals are compared as floats, so that a tree with a NaN is not even like itself and `0` is like
`-0`; the texts of the literals have to agree too.
-/
namespace Abacus

mutual

/-- Do two expressions look alike? It is the equality that `structural_eq` gives expressions: ids
are left out, and a literal is compared by its value and its text. -/
def Expr.alike : Expr → Expr → Bool
  | .number _ v s, .number _ w t => v == w && s == t
  | .var _ x, .var _ y => x == y
  | .binary _ op l r, .binary _ op' l' r' => op == op' && l.alike l' && r.alike r'
  | .negate _ e, .negate _ e' => e.alike e'
  | .call _ f args, .call _ f' args' => f == f' && Expr.alikeAll args args'
  | _, _ => false

/-- Do two lists of expressions look alike, one by one? Lists of different lengths do not. -/
def Expr.alikeAll : List Expr → List Expr → Bool
  | [], [] => true
  | e :: es, e' :: es' => e.alike e' && Expr.alikeAll es es'
  | _, _ => false

end

mutual

/-- Do two statements look alike? Of a definition the name, the names of the parameters and the body
count. -/
def Stmt.alike : Stmt → Stmt → Bool
  | .define _ f params _ body, .define _ f' params' _ body' =>
    f == f' && params.names == params'.names && Stmt.alikeAll body body'
  | .assign _ x e, .assign _ x' e' => x == x' && e.alike e'
  | .expr e, .expr e' => e.alike e'
  | _, _ => false

/-- Do two lists of statements look alike, one by one? Lists of different lengths do not. -/
def Stmt.alikeAll : List Stmt → List Stmt → Bool
  | [], [] => true
  | s :: ss, s' :: ss' => s.alike s' && Stmt.alikeAll ss ss'
  | _, _ => false

end

/-- Do two programs look alike? Neither the id of the program nor that of its block matters. -/
def Program.alike (p q : Program) : Bool :=
  Stmt.alikeAll p.stmts q.stmts

end Abacus
