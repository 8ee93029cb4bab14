import Abacus.Proofs.Constants
import Abacus.Proofs.Degree.Calls

/-!
# Folding keeps a degree

A body and the folded body have the same degree, unless the first one has none. They need not agree
where there is none: an expression without variables has the degree zero, minus zero or NaN,
depending on the literals in it, and becomes a literal of degree zero. So the degrees are compared
in the order in which NaN is below everything and the zeros are one, in which the whole analysis is
monotone (`Degree.refines_ofExpr`). What the machine is asked for comes to the same value, since
folding does not show.
-/
namespace Abacus

/-- The definition with its body folded, and fresh ids from here on. -/
def Define.foldFrom (next : NodeId) (d : Define) : Define :=
  { d with body := { d.body with stmts := (Stmt.foldAllFrom next d.body.stmts).1 } }

namespace Degree

open Floats

/-! ## The parts of the analysis are monotone -/

section
variable {left left' right right' : Float} (hleft : Refines left left')
  (hright : Refines right right')
include hleft hright

theorem refines_ofSum : Refines (ofSum left right) (ofSum left' right') := by
  by_cases hnan : left.isNaN = true ∨ right.isNaN = true
  · exact .inl (isNaN_ofSum hnan)
  · rw [not_or] at hnan
    have hleft' := hleft.resolve_left hnan.1
    have hright' := hright.resolve_left hnan.2
    unfold ofSum
    rw [isNaN_congr hleft', isNaN_congr hright', abs_congr hleft', abs_congr hright']
    split
    · exact .refl none
    · split
      · exact hleft
      · exact hright

theorem refines_ofPower {exponent exponent' : Expr}
    (hvalue : constantValue exponent = constantValue exponent') :
    Refines (ofPower left right exponent) (ofPower left' right' exponent') := by
  by_cases hnan : left.isNaN = true ∨ right.isNaN = true
  · exact .inl (isNaN_ofPower hnan exponent)
  · rw [not_or] at hnan
    have hleft' := hleft.resolve_left hnan.1
    have hright' := hright.resolve_left hnan.2
    unfold ofPower
    rw [isNaN_congr hleft', bne_zero_congr hright', hvalue]
    split
    · exact .refl none
    · exact hleft.mul (.refl _)

end

/-! ## Expressions -/

/-- Folding does not show in the value of a constant. -/
theorem constantValue_foldFrom (next : NodeId) (e : Expr) :
    constantValue e = constantValue (e.foldFrom next).1 := by
  unfold constantValue
  rw [(Expr.compile_reduces next e).run_eq {} Option.none]

theorem zero_add_zero : (0 : Float) + 0 = 0 := rfl

theorem zero_sub_zero : (0 : Float) - 0 = 0 := rfl

theorem ofSum_zero_zero : ofSum 0 0 = 0 := rfl

theorem ofPower_zero_zero (exponent : Expr) : ofPower 0 0 exponent = 0 * constantValue exponent := rfl

/-- An expression that folds has no degree but zero. -/
theorem refines_zero_of_foldable (degrees : Table String Float) : ∀ e : Expr, e.Foldable →
    Refines (ofExpr degrees e) 0
  | .number _ _ _, _ => .refl 0
  | .binary _ op left right, ⟨hleft, hright, _⟩ => by
    have hleft := refines_zero_of_foldable degrees left hleft
    have hright := refines_zero_of_foldable degrees right hright
    have hsum := refines_ofSum hleft hright
    have hdifference := hleft.sub hright
    rw [ofSum_zero_zero] at hsum
    rw [zero_sub_zero] at hdifference
    cases op with
    | multiply =>
      have hproduct := hleft.add hright
      rw [zero_add_zero] at hproduct
      exact hproduct
    | divide | modulo => exact hdifference
    | add | subtract => exact hsum
    | exponentiate =>
      have hpower := refines_ofPower hleft hright (rfl : constantValue right = constantValue right)
      rw [ofPower_zero_zero] at hpower
      exact hpower.trans (refines_zero_mul _)
  | .negate _ operand, ⟨hoperand, _⟩ => refines_zero_of_foldable degrees operand hoperand

/-- Where the first table has the degree of a variable, the second one has it. -/
def RefinesTable (degrees degrees' : Table String Float) : Prop :=
  ∀ name, Refines ((degrees.get? name).getD none) ((degrees'.get? name).getD none)

theorem RefinesTable.refl (degrees : Table String Float) : RefinesTable degrees degrees :=
  fun _ => .refl _

theorem RefinesTable.insert {degrees degrees' : Table String Float} (h : RefinesTable degrees degrees')
    (name : String) {x x' : Float} (hx : Refines x x') :
    RefinesTable (degrees.insert name x) (degrees'.insert name x') :=
  Table.rel_insert (R := fun a b => Refines (a.getD none) (b.getD none)) h name hx

theorem refines_ofExpr {degrees degrees' : Table String Float} (h : RefinesTable degrees degrees') :
    ∀ (next : NodeId) (e : Expr),
      Refines (ofExpr degrees e) (ofExpr degrees' (e.foldFrom next).1)
  | _, .number _ _ _ => .refl 0
  | _, .var _ name => h name
  | next, .negate id operand => by
    rcases Expr.foldFrom_negate_cases next id operand with ⟨-, hkept⟩ | ⟨x, hx, -, hliteral⟩
    · rw [hkept]
      exact refines_ofExpr h next operand
    · rw [hliteral]
      exact refines_zero_of_foldable degrees operand (operand.foldable_of_value next x hx)
  | _, .call _ _ _ => .refl none
  | next, .binary id op left right => by
    have hfoldable := (Expr.binary id op left right).foldable_of_value next
    rcases Expr.foldFrom_binary_cases next id op left right with ⟨-, hkept⟩ | ⟨x, y, -, -, -, hliteral⟩
    · have hleft := refines_ofExpr h next left
      have hright := refines_ofExpr h (left.foldFrom next).2 right
      rw [hkept]
      cases op with
      | multiply => exact hleft.add hright
      | divide | modulo => exact hleft.sub hright
      | add | subtract => exact refines_ofSum hleft hright
      | exponentiate => exact refines_ofPower hleft hright (constantValue_foldFrom _ right)
    · rw [hliteral] at hfoldable ⊢
      exact refines_zero_of_foldable degrees _ (hfoldable _ rfl)

/-! ## Bodies -/

theorem refines_ofStmts : ∀ (stmts : List Stmt) (next : NodeId) {degrees degrees' : Table String Float}
    {last last' : Float}, RefinesTable degrees degrees' → Refines last last' →
      Refines (ofStmts degrees last stmts) (ofStmts degrees' last' (Stmt.foldAllFrom next stmts).1)
  | [], _, _, _, _, _, _, hlast => hlast
  | .assign _ name value :: rest, next, _, _, _, _, h, _ =>
    refines_ofStmts rest _ (h.insert name (refines_ofExpr h next value)) (.refl none)
  | .expr e :: rest, next, _, _, _, _, h, _ =>
    refines_ofStmts rest _ h (refines_ofExpr h next e)
  | .define _ _ _ _ _ :: rest, _, _, _, _, _, h, _ => refines_ofStmts rest _ h (.refl none)

end Degree

/-! ## Definitions in programs -/

namespace Node

/-- Nothing but expressions is part of an expression. -/
theorem expr_of_at?_expr {path : List Nat} {e : Expr} {m : Node} (h : (expr e).at? path = some m) :
    ∃ e', m = expr e' := by
  induction path generalizing e with
  | nil => exact ⟨e, (Option.some.inj h).symm⟩
  | cons i path ih =>
    obtain ⟨c, hc, h⟩ := at?_cons.mp h
    simp only [children, List.getElem?_map, Option.map_eq_some_iff] at hc
    obtain ⟨operand, -, rfl⟩ := hc
    exact ih h

/-- A definition is part of no expression, so that nothing above it folds. -/
theorem exposed_define {path : List Nat} {n : Node} {d : Define} (h : n.at? path = some (define d)) :
    n.Exposed path := by
  induction path generalizing n with
  | nil => exact exposed_nil n
  | cons i path ih =>
    obtain ⟨c, hc, hbelow⟩ := at?_cons.mp h
    refine (exposed_cons hc path).mpr ⟨fun hfolds => ?_, ih hbelow⟩
    cases n with
    | expr e =>
      obtain ⟨e', he'⟩ := expr_of_at?_expr h
      cases he'
    | _ => exact hfolds.elim

end Node

/-- **Folding keeps a degree.** If a function of one parameter has a degree, which is some number,
it has the same one with its body folded, and that is what becomes of it when a program that it is
part of is folded. -/
theorem Define.degree_fold (d : Define) (hparams : d.params.params.length = 1) {v : Float}
    (hdegree : d.degree = .ok v) (hnumber : v.isNaN = false) :
    (∀ next, (d.foldFrom next).degree = .ok v) ∧
    ∀ (p : Program) (path : List Nat), (Node.program p).at? path = some (.define d) →
      ∃ next, (Node.program p.fold).at? path = some (.define (d.foldFrom next)) := by
  obtain ⟨input, hinput⟩ := List.length_eq_one_iff.mp hparams
  refine ⟨fun next => ?_, fun p path hpath => ?_⟩
  · rw [Define.degree, hinput] at hdegree
    have hv := Except.ok.inj hdegree
    have hrefines := Degree.refines_ofStmts d.body.stmts next
      (.refl (Table.empty.insert input.name 1)) (.refl Degree.none)
    rw [Define.degree, Define.foldFrom, hinput]
    rcases hrefines with hnan | hsame
    · rw [← hv, Floats.isNaN_abs hnan] at hnumber
      cases hnumber
    · exact congrArg Except.ok ((Floats.abs_congr hsame).symm.trans hv)
  · obtain ⟨next, hat, -⟩ := Node.at?_foldFrom (Node.exposed_define hpath) hpath (freshId p.nodeIds)
    exact ⟨next, hat⟩

/-- `f(x) = { c = -(2 - 2); x^(1 + 1) + c }`, in which a zero, a negative zero and the exponent
fold. -/
def foldableExponent : Define :=
  let literal := fun value => Expr.number unnumbered value none
  let binary := Expr.binary unnumbered
  { id := unnumbered
    name := "f"
    params := { id := unnumbered, params := [{ id := unnumbered, name := "x" }] }
    body :=
      { id := unnumbered
        stmts :=
          [ .assign unnumbered "c" (.negate unnumbered (binary .subtract (literal 2) (literal 2))),
            .expr (binary .add
              (binary .exponentiate (.var unnumbered "x") (binary .add (literal 1) (literal 1)))
              (.var unnumbered "c")) ] } }

/-- The program that defines the function and nothing else. -/
def foldableProgram : Program :=
  { id := unnumbered, body := { id := unnumbered, stmts := [foldableExponent.stmt] } }

theorem Define.degree_fold_foldableExponent :
    foldableExponent.params.params.length = 1 ∧ foldableExponent.degree = .ok 2 ∧
      (2 : Float).isNaN = false ∧ (foldableExponent.foldFrom 0).degree = .ok 2 ∧
      ∃ next, (Node.program foldableProgram.fold).at? [0, 0] =
        some (.define (foldableExponent.foldFrom next)) := by
  have hdegree : foldableExponent.degree = .ok 2 := by decide +kernel
  obtain ⟨hfolded, hprogram⟩ := Define.degree_fold foldableExponent rfl hdegree rfl
  exact ⟨rfl, hdegree, rfl, hfolded 0, hprogram foldableProgram [0, 0] rfl⟩

end Abacus
