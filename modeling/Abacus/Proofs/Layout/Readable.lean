import Abacus.Proofs.Grammar.Derivation
import Abacus.Proofs.Token.Scanning
import Abacus.Syntax.Node

/-!
# Trees that can be written down

A tree is readable if its names are names, its literals have the texts that they are read from, and
no definition takes the name of a built-in function. The ids do not matter: `bare` takes them off,
and numbering a tree is numbering the bare one (`Stmt.numberAllFrom_bareAll`).
-/
namespace Abacus

open Lexeme (isName)

/-! ## Readable trees -/

mutual

def Expr.Readable : Expr → Prop
  | .number _ v source => ∃ text, source = some text ∧ IsLiteral v text
  | .var _ x => isName x.toList = true
  | .binary _ _ left right => left.Readable ∧ right.Readable
  | .negate _ operand => operand.Readable
  | .call _ f args => isName f.toList = true ∧ Expr.ReadableAll args

def Expr.ReadableAll : List Expr → Prop
  | [] => True
  | e :: rest => e.Readable ∧ Expr.ReadableAll rest

end

mutual

def Stmt.Readable : Stmt → Prop
  | .define _ f params _ body =>
    isName f.toList = true ∧ Builtin.ofName? f = none ∧
      (∀ x ∈ params.names, isName x.toList = true) ∧ Stmt.ReadableAll body
  | .assign _ x value => isName x.toList = true ∧ value.Readable
  | .expr e => e.Readable

def Stmt.ReadableAll : List Stmt → Prop
  | [] => True
  | s :: rest => s.Readable ∧ Stmt.ReadableAll rest

end

/-- Every name is a small letter with letters and digits behind it, every literal is read from its
text, and no definition has the name of a built-in function. -/
def Program.Readable (p : Program) : Prop :=
  Stmt.ReadableAll p.stmts

/-! ## Trees without ids -/

mutual

def Expr.bare : Expr → Expr
  | .number _ v source => .number unnumbered v source
  | .var _ x => .var unnumbered x
  | .binary _ op left right => .binary unnumbered op left.bare right.bare
  | .negate _ operand => .negate unnumbered operand.bare
  | .call _ f args => .call unnumbered f (Expr.bareAll args)

def Expr.bareAll : List Expr → List Expr
  | [] => []
  | e :: rest => e.bare :: Expr.bareAll rest

end

mutual

/-- The statement with the id of every node taken off. -/
def Stmt.bare : Stmt → Stmt
  | .define _ f params _ body =>
    .define unnumbered f (Grammar.paramList params.names) unnumbered (Stmt.bareAll body)
  | .assign _ x value => .assign unnumbered x value.bare
  | .expr e => .expr e.bare

def Stmt.bareAll : List Stmt → List Stmt
  | [] => []
  | s :: rest => s.bare :: Stmt.bareAll rest

end

/-! ## Numbering -/

theorem Grammar.names_paramList (names : List String) : (paramList names).names = names := by
  simp only [paramList, ParamList.names, List.map_map]
  exact List.map_id names

theorem ParamList.names_numberFrom (p : ParamList) (n : NodeId) :
    (p.numberFrom n).1.names = p.names := by
  refine List.ext_getElem (by simp only [numberFrom, names, List.length_map, List.length_mapIdx]) ?_
  intro i _ _
  simp only [numberFrom, names, List.getElem_map, List.getElem_mapIdx]

theorem ParamList.numberFrom_paramList (p : ParamList) (n : NodeId) :
    (Grammar.paramList p.names).numberFrom n = p.numberFrom n := by
  have hparams : ((Grammar.paramList p.names).params.mapIdx fun i param =>
      { param with id := n + 1 + i }) =
        p.params.mapIdx fun i param => { param with id := n + 1 + i } := by
    refine List.ext_getElem
      (by simp only [Grammar.paramList, names, List.length_map, List.length_mapIdx]) ?_
    intro i _ _
    simp only [Grammar.paramList, names, List.getElem_map, List.getElem_mapIdx]
  have hlength : (Grammar.paramList p.names).params.length = p.params.length := by
    simp only [Grammar.paramList, names, List.length_map]
  simp only [numberFrom, hparams, hlength]

mutual

theorem Expr.bare_numberFrom : ∀ (e : Expr) (n : NodeId), (e.numberFrom n).1.bare = e.bare
  | .number _ _ _, _ => rfl
  | .var _ _, _ => rfl
  | .binary _ _ left right, n => by
    simp only [Expr.numberFrom, Expr.bare, left.bare_numberFrom, right.bare_numberFrom]
  | .negate _ operand, n => by
    simp only [Expr.numberFrom, Expr.bare, operand.bare_numberFrom]
  | .call _ _ args, n => by
    simp only [Expr.numberFrom, Expr.bare, Expr.bareAll_numberAllFrom args]

theorem Expr.bareAll_numberAllFrom : ∀ (es : List Expr) (n : NodeId),
    Expr.bareAll (Expr.numberAllFrom n es).1 = Expr.bareAll es
  | [], _ => rfl
  | e :: rest, n => by
    simp only [Expr.numberAllFrom, Expr.bareAll, e.bare_numberFrom,
      Expr.bareAll_numberAllFrom rest]

end

mutual

theorem Stmt.bare_numberFrom : ∀ (s : Stmt) (n : NodeId), (s.numberFrom n).1.bare = s.bare
  | .define _ _ params _ body, n => by
    simp only [Stmt.numberFrom, Stmt.bare, params.names_numberFrom, Stmt.bareAll_numberAllFrom body]
  | .assign _ _ value, n => by
    simp only [Stmt.numberFrom, Stmt.bare, value.bare_numberFrom]
  | .expr e, n => by
    simp only [Stmt.numberFrom, Stmt.bare, e.bare_numberFrom]

theorem Stmt.bareAll_numberAllFrom : ∀ (ss : List Stmt) (n : NodeId),
    Stmt.bareAll (Stmt.numberAllFrom n ss).1 = Stmt.bareAll ss
  | [], _ => rfl
  | s :: rest, n => by
    simp only [Stmt.numberAllFrom, Stmt.bareAll, s.bare_numberFrom,
      Stmt.bareAll_numberAllFrom rest]

end

mutual

theorem Expr.numberFrom_bare : ∀ (e : Expr) (n : NodeId), e.bare.numberFrom n = e.numberFrom n
  | .number _ _ _, _ => rfl
  | .var _ _, _ => rfl
  | .binary _ _ left right, n => by
    simp only [Expr.bare, Expr.numberFrom, left.numberFrom_bare, right.numberFrom_bare]
  | .negate _ operand, n => by
    simp only [Expr.bare, Expr.numberFrom, operand.numberFrom_bare]
  | .call _ _ args, n => by
    simp only [Expr.bare, Expr.numberFrom, Expr.numberAllFrom_bareAll args]

theorem Expr.numberAllFrom_bareAll : ∀ (es : List Expr) (n : NodeId),
    Expr.numberAllFrom n (Expr.bareAll es) = Expr.numberAllFrom n es
  | [], _ => rfl
  | e :: rest, n => by
    simp only [Expr.bareAll, Expr.numberAllFrom, e.numberFrom_bare,
      Expr.numberAllFrom_bareAll rest]

end

mutual

theorem Stmt.numberFrom_bare : ∀ (s : Stmt) (n : NodeId), s.bare.numberFrom n = s.numberFrom n
  | .define _ _ params _ body, n => by
    simp only [Stmt.bare, Stmt.numberFrom, params.numberFrom_paramList,
      Stmt.numberAllFrom_bareAll body]
  | .assign _ _ value, n => by
    simp only [Stmt.bare, Stmt.numberFrom, value.numberFrom_bare]
  | .expr e, n => by
    simp only [Stmt.bare, Stmt.numberFrom, e.numberFrom_bare]

theorem Stmt.numberAllFrom_bareAll : ∀ (ss : List Stmt) (n : NodeId),
    Stmt.numberAllFrom n (Stmt.bareAll ss) = Stmt.numberAllFrom n ss
  | [], _ => rfl
  | s :: rest, n => by
    simp only [Stmt.bareAll, Stmt.numberAllFrom, s.numberFrom_bare,
      Stmt.numberAllFrom_bareAll rest]

end

/-- Numbering a numbered program again changes nothing. -/
theorem Program.numbered_ofStmts (ss : List Stmt) :
    (Program.ofStmts ss).numbered = .ofStmts ss := by
  have hbare := Stmt.bareAll_numberAllFrom ss 2
  unfold Program.numbered Program.ofStmts Program.stmts
  rw [← Stmt.numberAllFrom_bareAll (Stmt.numberAllFrom 2 ss).1, hbare, Stmt.numberAllFrom_bareAll]

theorem Program.bareAll_ofStmts (ss : List Stmt) :
    Stmt.bareAll (Program.ofStmts ss).stmts = Stmt.bareAll ss :=
  Stmt.bareAll_numberAllFrom ss 2

/-! ## Readable trees and their ids -/

mutual

theorem Expr.readable_bare : ∀ e : Expr, e.bare.Readable ↔ e.Readable
  | .number _ _ _ => Iff.rfl
  | .var _ _ => Iff.rfl
  | .binary _ _ left right => and_congr left.readable_bare right.readable_bare
  | .negate _ operand => operand.readable_bare
  | .call _ _ args => and_congr Iff.rfl (Expr.readableAll_bareAll args)

theorem Expr.readableAll_bareAll : ∀ es : List Expr,
    Expr.ReadableAll (Expr.bareAll es) ↔ Expr.ReadableAll es
  | [] => Iff.rfl
  | e :: rest => and_congr e.readable_bare (Expr.readableAll_bareAll rest)

end

mutual

theorem Stmt.readable_bare : ∀ s : Stmt, s.bare.Readable ↔ s.Readable
  | .define _ _ params _ body => by
    simp only [Stmt.bare, Stmt.Readable, Grammar.names_paramList, Stmt.readableAll_bareAll body]
  | .assign _ _ value => and_congr Iff.rfl value.readable_bare
  | .expr e => e.readable_bare

theorem Stmt.readableAll_bareAll : ∀ ss : List Stmt,
    Stmt.ReadableAll (Stmt.bareAll ss) ↔ Stmt.ReadableAll ss
  | [] => Iff.rfl
  | s :: rest => and_congr s.readable_bare (Stmt.readableAll_bareAll rest)

end

theorem Program.readable_ofStmts (ss : List Stmt) :
    (Program.ofStmts ss).Readable ↔ Stmt.ReadableAll ss := by
  unfold Program.Readable
  rw [← Stmt.readableAll_bareAll, Program.bareAll_ofStmts, Stmt.readableAll_bareAll]

end Abacus
