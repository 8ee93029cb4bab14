import Abacus.Proofs.Degree.Folded
import Abacus.Proofs.Float.Comparing

/-!
# The order of the terms of a sum

A sum has the degree of greater magnitude. Of two degrees `n` and `-n` neither is, and the analysis
takes the right one, so that the degree of such a sum depends on the order of its terms: `x + 1 / x`
has the degree -1 and `1 / x + x` the degree 1. The sign shows as soon as something is done with the
sum, as in `x * (x + 1 / x)`, of degree 0, and `x * (1 / x + x)`, of degree 2.

These are the only sums whose terms have an order (`ofSum_cases`). With the terms of any other sum
swapped all degrees stay the same but for the sign of a zero (`Degree.agree_ofExpr_swapped`), and so
does the value of an exponent, since sums of floats commute.
-/
namespace Abacus

/-! ## Swapping -/

/-- The expressions are the same but for one sum, whose operands are swapped in the second one. They
are as `P` says, unless the sum is part of an argument. -/
inductive Expr.Swapped : (P : Expr → Expr → Prop) → Expr → Expr → Prop
  | sum {P : Expr → Expr → Prop} {id : NodeId} {left right : Expr} (h : P left right) :
    Swapped P (.binary id .add left right) (.binary id .add right left)
  | left {P : Expr → Expr → Prop} {id : NodeId} {op : Operator} {left left' right : Expr}
    (h : Swapped P left left') : Swapped P (.binary id op left right) (.binary id op left' right)
  | right {P : Expr → Expr → Prop} {id : NodeId} {op : Operator} {left right right' : Expr}
    (h : Swapped P right right') : Swapped P (.binary id op left right) (.binary id op left right')
  | negate {P : Expr → Expr → Prop} {id : NodeId} {operand operand' : Expr}
    (h : Swapped P operand operand') : Swapped P (.negate id operand) (.negate id operand')
  | argument {P : Expr → Expr → Prop} {id : NodeId} {name : String} {before after : List Expr}
    {arg arg' : Expr} (h : Swapped (fun _ _ => True) arg arg') :
    Swapped P (.call id name (before ++ arg :: after)) (.call id name (before ++ arg' :: after))

/-- The table with which the statement after this one is looked at. -/
def Degree.after (degrees : Table String Float) : Stmt → Table String Float
  | .assign _ name value => degrees.insert name (ofExpr degrees value)
  | .expr _ => degrees
  | .define _ _ _ _ _ => degrees

/-- The statements are the same but for one sum, whose operands are swapped in the second ones. They
are as `P` says of them and the table at that point, unless the sum is part of an argument or of
another definition. -/
inductive Stmt.Swapped : (P : Table String Float → Expr → Expr → Prop) → Table String Float →
    List Stmt → List Stmt → Prop
  | assign {P : Table String Float → Expr → Expr → Prop} {degrees : Table String Float} {id : NodeId}
    {name : String} {value value' : Expr} {rest : List Stmt} (h : value.Swapped (P degrees) value') :
    Swapped P degrees (.assign id name value :: rest) (.assign id name value' :: rest)
  | expr {P : Table String Float → Expr → Expr → Prop} {degrees : Table String Float} {e e' : Expr}
    {rest : List Stmt} (h : e.Swapped (P degrees) e') :
    Swapped P degrees (.expr e :: rest) (.expr e' :: rest)
  | define {P : Table String Float → Expr → Expr → Prop} {degrees : Table String Float}
    {id bodyId : NodeId} {name : String} {params : ParamList} {body body' rest : List Stmt}
    (h : Swapped (fun _ _ _ => True) degrees body body') :
    Swapped P degrees (.define id name params bodyId body :: rest)
      (.define id name params bodyId body' :: rest)
  | later {P : Table String Float → Expr → Expr → Prop} {degrees : Table String Float} {s : Stmt}
    {rest rest' : List Stmt} (h : Swapped P (Degree.after degrees s) rest rest') :
    Swapped P degrees (s :: rest) (s :: rest')

theorem Expr.Swapped.hasCall_iff {P : Expr → Expr → Prop} {e e' : Expr} (h : e.Swapped P e') :
    e.HasCall ↔ e'.HasCall := by
  induction h with
  | sum => exact Or.comm
  | left _ ih => exact or_congr_left ih
  | right _ ih => exact or_congr_right ih
  | negate _ ih => exact ih
  | argument => exact Iff.rfl

/-! ## The value of an exponent -/

theorem Traced.toOption_bind {ε α β : Type} (x : Traced ε α) (f : α → Traced ε β) :
    (x >>= f).result.toOption = x.result.toOption.bind fun a => (f a).result.toOption := by
  rw [Traced.bind_eq]
  cases x.result <;> rfl

/-- What does not fail comes to the same value with the terms of a sum swapped. What fails may come
to another error: the right operand is evaluated first. -/
theorem Expr.toOption_eval_swapped {P : Expr → Expr → Prop} {e e' : Expr} (h : e.Swapped P e')
    (hcall : ¬e.HasCall) (limit : Option Nat) (depth : Nat) (s : Env) :
    (e.eval limit depth s).result.toOption = (e'.eval limit depth s).result.toOption := by
  induction h with
  | @sum _ _ left right _ =>
    have hadd : ∀ x y : Float, ((Builtin.ofOperator .add).call [x, y]).result.toOption = some (x + y) :=
      fun _ _ => rfl
    simp only [Expr.eval, Traced.toOption_bind, hadd]
    rw [Option.bind_comm]
    simp only [Floats.add_comm]
  | left _ ih =>
    simp only [Expr.eval, Traced.toOption_bind, ih fun h => hcall (.inl h)]
  | right _ ih =>
    simp only [Expr.eval, Traced.toOption_bind, ih fun h => hcall (.inr h)]
  | negate _ ih => simp only [Expr.eval, Traced.toOption_bind, ih hcall]
  | argument => exact absurd trivial hcall

namespace Degree

open Floats

theorem constantValue_eq_getD (e : Expr) :
    constantValue e = (e.compile.run {} Option.none).result.toOption.getD none := by
  unfold constantValue
  cases (e.compile.run {} Option.none).result <;> rfl

theorem constantValue_swapped {P : Expr → Expr → Prop} {e e' : Expr} (h : e.Swapped P e')
    (hcall : ¬e.HasCall) : constantValue e = constantValue e' := by
  have hcall' : ¬e'.HasCall := mt h.hasCall_iff.mpr hcall
  rw [constantValue_eq_getD, constantValue_eq_getD,
    e.run_compile (e.counted_of_not_hasCall hcall), e'.run_compile (e'.counted_of_not_hasCall hcall'),
    Expr.toOption_eval_swapped h hcall]

/-! ## The terms of a sum -/

/-- Not equal, but of the same magnitude: `n` and `-n`. -/
def Opposite (left right : Float) : Prop :=
  (left.abs == right.abs) = true ∧ (left == right) = false

instance (left right : Float) : Decidable (Opposite left right) :=
  inferInstanceAs (Decidable (_ ∧ _))

/-- The terms of a sum whose order does not matter. -/
def Unordered (degrees : Table String Float) (left right : Expr) : Prop :=
  ¬Opposite (ofExpr degrees left) (ofExpr degrees right)

instance (degrees : Table String Float) (left right : Expr) :
    Decidable (Unordered degrees left right) :=
  inferInstanceAs (Decidable (¬_))

/-- The same degree, or none on both sides, but for the sign of a zero. -/
def Agree (x y : Float) : Prop :=
  SameValue x.toModel.unpack y.toModel.unpack

theorem Agree.refl (x : Float) : Agree x x :=
  SameValue.refl _

theorem Agree.symm {x y : Float} (h : Agree x y) : Agree y x := by
  rcases h with h | ⟨s, t, hs, ht⟩
  · exact .inl h.symm
  · exact .inr ⟨t, s, ht, hs⟩

theorem agree_of_isNaN {x y : Float} (hx : x.isNaN = true) (hy : y.isNaN = true) : Agree x y :=
  .inl ((isNaN_iff.mp hx).trans (isNaN_iff.mp hy).symm)

theorem ofSum_of_isNaN {left right : Float} (h : left.isNaN = true ∨ right.isNaN = true) :
    ofSum left right = none := by
  rw [ofSum, if_pos (Bool.or_eq_true_iff.mpr h)]

theorem ofSum_of_isNumber {left right : Float} (hleft : left.isNaN = false)
    (hright : right.isNaN = false) :
    ofSum left right = if right.abs < left.abs then left else right := by
  rw [ofSum, hleft, hright, Bool.or_false, if_neg Bool.false_ne_true]

theorem isNumber_of_abs_beq {left right : Float} (h : (left.abs == right.abs) = true) :
    left.isNaN = false ∧ right.isNaN = false := by
  have hnumber : ∀ x : Float, x.abs ≠ .nan → x.isNaN = false := by
    intro x hx
    rw [Bool.eq_false_iff]
    refine fun hnan => hx ?_
    have habs := isNaN_abs hnan
    rwa [Float.isNaN_eq_decide_eq_nan, decide_eq_true_iff] at habs
  obtain ⟨hleft, hright, -⟩ := Float.beq_iff_ne_nan_and_eq.mp h
  exact ⟨hnumber left hleft, hnumber right hright⟩

/-- If neither degree is of greater magnitude, the right one counts. -/
theorem ofSum_of_abs_beq {left right : Float} (h : (left.abs == right.abs) = true) :
    ofSum left right = right := by
  obtain ⟨hleft, hright⟩ := isNumber_of_abs_beq h
  have hirrefl : ¬right.abs < right.abs := fun hlt => lt_asymm hlt hlt
  rw [ofSum_of_isNumber hleft hright, abs_eq_of_beq h, if_neg hirrefl]

/-- A sum taken from either side: it has the same degree, or one operand and then the other, which
are of the same magnitude. -/
theorem ofSum_cases (left right : Float) :
    ofSum left right = ofSum right left ∨
    ((left.abs == right.abs) = true ∧ ofSum left right = right ∧ ofSum right left = left) := by
  by_cases hnan : left.isNaN = true ∨ right.isNaN = true
  · exact .inl (by rw [ofSum_of_isNaN hnan, ofSum_of_isNaN hnan.symm])
  rw [not_or, Bool.not_eq_true, Bool.not_eq_true] at hnan
  have hforth := ofSum_of_isNumber hnan.1 hnan.2
  have hback := ofSum_of_isNumber hnan.2 hnan.1
  rcases lt_trichotomy (isNaN_abs_eq_false hnan.1) (isNaN_abs_eq_false hnan.2) with hlt | heq | hgt
  · rw [if_neg (lt_asymm hlt)] at hforth
    rw [if_pos hlt] at hback
    exact .inl (hforth.trans hback.symm)
  · exact .inr ⟨heq, ofSum_of_abs_beq heq, ofSum_of_abs_beq (abs_beq_comm heq)⟩
  · rw [if_pos hgt] at hforth
    rw [if_neg (lt_asymm hgt)] at hback
    exact .inl (hforth.trans hback.symm)

theorem agree_ofSum_comm {left right : Float} (h : ¬Opposite left right) :
    Agree (ofSum left right) (ofSum right left) := by
  rcases ofSum_cases left right with heq | ⟨habs, hforth, hback⟩
  · rw [heq]
    exact .refl _
  · have hbeq : (left == right) = true := by
      rw [← Bool.not_eq_false]
      exact fun hne => h ⟨habs, hne⟩
    rw [hforth, hback]
    exact Agree.symm (sameValue_of_beq hbeq)

/-- The order of the terms does not show in the magnitude. -/
theorem abs_ofSum_comm (left right : Float) : (ofSum left right).abs = (ofSum right left).abs := by
  rcases ofSum_cases left right with heq | ⟨habs, hforth, hback⟩
  · rw [heq]
  · rw [hforth, hback, abs_eq_of_beq habs]

/-! ## Expressions -/

section
variable {left left' right right' : Float} (hleft : Agree left left') (hright : Agree right right')
include hleft hright

theorem agree_add : Agree (left + right) (left' + right') :=
  (robust_add.congr hleft hright).unpack_pack

theorem agree_sub : Agree (left - right) (left' - right') :=
  (robust_sub.congr hleft hright).unpack_pack

theorem agree_ofSum : Agree (ofSum left right) (ofSum left' right') := by
  unfold ofSum
  rw [isNaN_congr hleft, isNaN_congr hright, abs_congr hleft, abs_congr hright]
  split
  · exact .refl none
  · split
    · exact hleft
    · exact hright

/-- The values of the exponents count only if their degrees are numbers. -/
theorem agree_ofPower {exponent exponent' : Expr}
    (hvalue : right.isNaN = false → constantValue exponent = constantValue exponent') :
    Agree (ofPower left right exponent) (ofPower left' right' exponent') := by
  cases hnan : right.isNaN with
  | true =>
    exact agree_of_isNaN (isNaN_ofPower (.inr hnan) exponent)
      (isNaN_ofPower (.inr (isNaN_congr hright ▸ hnan)) exponent')
  | false =>
    unfold ofPower
    rw [isNaN_congr hleft, bne_zero_congr hright, hvalue hnan]
    split
    · exact .refl none
    · exact (robust_mul.congr hleft (.refl _)).unpack_pack

end

section
variable {degrees degrees' : Table String Float}

theorem agree_ofBinary {left left' right right' : Expr}
    (hleft : Agree (ofExpr degrees left) (ofExpr degrees' left'))
    (hright : Agree (ofExpr degrees right) (ofExpr degrees' right'))
    (hvalue : (ofExpr degrees right).isNaN = false → constantValue right = constantValue right')
    (id : NodeId) (op : Operator) :
    Agree (ofExpr degrees (.binary id op left right)) (ofExpr degrees' (.binary id op left' right')) := by
  cases op with
  | multiply => exact agree_add hleft hright
  | divide | modulo => exact agree_sub hleft hright
  | add | subtract => exact agree_ofSum hleft hright
  | exponentiate => exact agree_ofPower hleft hright hvalue

/-- The tables agree on every variable. -/
def AgreeTable (degrees degrees' : Table String Float) : Prop :=
  ∀ name, Agree ((degrees.get? name).getD none) ((degrees'.get? name).getD none)

theorem AgreeTable.refl (degrees : Table String Float) : AgreeTable degrees degrees :=
  fun _ => .refl _

theorem AgreeTable.insert (h : AgreeTable degrees degrees') (name : String) {x x' : Float}
    (hx : Agree x x') : AgreeTable (degrees.insert name x) (degrees'.insert name x') :=
  Table.rel_insert (R := fun a b => Agree (a.getD none) (b.getD none)) h name hx

theorem agree_ofExpr (h : AgreeTable degrees degrees') :
    ∀ e : Expr, Agree (ofExpr degrees e) (ofExpr degrees' e)
  | .number _ _ _ => .refl 0
  | .var _ name => h name
  | .negate _ operand => agree_ofExpr h operand
  | .call _ _ _ => .refl none
  | .binary id op left right =>
    agree_ofBinary (agree_ofExpr h left) (agree_ofExpr h right) (fun _ => rfl) id op

/-- An expression keeps its degree with the terms of a sum in it swapped, if they do not have
opposite degrees. -/
theorem agree_ofExpr_swapped {P : Expr → Expr → Prop} {e e' : Expr} (h : e.Swapped P e')
    (hP : ∀ left right, P left right → Unordered degrees left right) :
    Agree (ofExpr degrees e) (ofExpr degrees e') := by
  induction h with
  | sum h => exact agree_ofSum_comm (hP _ _ h)
  | left _ ih => exact agree_ofBinary (ih hP) (.refl _) (fun _ => rfl) _ _
  | right hswapped ih =>
    refine agree_ofBinary (.refl _) (ih hP) (fun hnumber => ?_) _ _
    refine constantValue_swapped hswapped fun hcall => ?_
    rw [isNaN_ofExpr _ (.inl hcall)] at hnumber
    cases hnumber
  | negate _ ih => exact ih hP
  | argument => exact .refl none

/-! ## Bodies -/

theorem agree_ofStmts : ∀ (stmts : List Stmt) {degrees degrees' : Table String Float}
    {last last' : Float}, AgreeTable degrees degrees' → Agree last last' →
      Agree (ofStmts degrees last stmts) (ofStmts degrees' last' stmts)
  | [], _, _, _, _, _, hlast => hlast
  | .assign _ name value :: rest, _, _, _, _, h, _ =>
    agree_ofStmts rest (h.insert name (agree_ofExpr h value)) (.refl none)
  | .expr e :: rest, _, _, _, _, h, _ => agree_ofStmts rest h (agree_ofExpr h e)
  | .define _ _ _ _ _ :: rest, _, _, _, _, h, _ => agree_ofStmts rest h (.refl none)

theorem agree_ofStmts_swapped {P : Table String Float → Expr → Expr → Prop} {stmts stmts' : List Stmt}
    (h : Stmt.Swapped P degrees stmts stmts')
    (hP : ∀ degrees left right, P degrees left right → Unordered degrees left right) (last : Float) :
    Agree (ofStmts degrees last stmts) (ofStmts degrees last stmts') := by
  induction h generalizing last with
  | @assign _ degrees _ name _ _ rest h =>
    have hvalue := agree_ofExpr_swapped h (hP degrees)
    exact agree_ofStmts rest ((AgreeTable.refl degrees).insert name hvalue) (.refl none)
  | @expr _ degrees _ _ rest h =>
    exact agree_ofStmts rest (.refl degrees) (agree_ofExpr_swapped h (hP degrees))
  | @define _ degrees _ _ _ _ _ _ rest =>
    exact Agree.refl (ofStmts degrees none rest)
  | @later _ degrees s _ _ _ ih =>
    cases s with
    | assign _ _ _ => exact ih hP none
    | expr e => exact ih hP (ofExpr degrees e)
    | define _ _ _ _ _ => exact ih hP none

/-- The degree of a body is that of its last expression, with what has been assigned before it. -/
theorem ofStmts_append_expr (before : List Stmt) (e : Expr) : ∀ (degrees : Table String Float)
    (last : Float), ofStmts degrees last (before ++ [.expr e]) =
      ofExpr (before.foldl after degrees) e := by
  induction before with
  | nil => exact fun _ _ => rfl
  | cons s before ih =>
    intro degrees last
    cases s with
    | assign _ _ _ => exact ih _ none
    | expr e' => exact ih degrees (ofExpr degrees e')
    | define _ _ _ _ _ => exact ih degrees none

end

end Degree

/-- The definition with these statements for its body. -/
def Define.withStmts (d : Define) (stmts : List Stmt) : Define :=
  { d with body := { d.body with stmts := stmts } }

theorem Define.degree_withStmts {d : Define} {input : Param} (hinput : d.params.params = [input])
    (stmts : List Stmt) : (d.withStmts stmts).degree =
      .ok (Degree.ofStmts (Table.empty.insert input.name 1) Degree.none stmts).abs := by
  rw [Define.degree, Define.withStmts, hinput]

/-- **The order of the terms of a sum.** The terms of one sum may be swapped anywhere in the body of a
function of one parameter without a change of its degree, unless their own degrees are opposite, `n`
and `-n`. A sum of opposite degrees has the right one of them, so that swapping turns the sign of its
degree. That is not seen if the sum is all there is to the last statement. -/
theorem Define.degree_swapped (d : Define) {input : Param} (hinput : d.params.params = [input]) :
    (∀ stmts, Stmt.Swapped Degree.Unordered (Table.empty.insert input.name 1) d.body.stmts stmts →
      (d.withStmts stmts).degree = d.degree) ∧
    (∀ left right, Degree.Opposite left right →
      Degree.ofSum left right = right ∧ Degree.ofSum right left = left) ∧
    ∀ (before : List Stmt) (id : NodeId) (left right : Expr),
      d.body.stmts = before ++ [.expr (.binary id .add left right)] →
        (d.withStmts (before ++ [.expr (.binary id .add right left)])).degree = d.degree := by
  have hdegree : d.degree = _ := d.degree_withStmts hinput d.body.stmts
  refine ⟨fun stmts h => ?_, fun left right h => ?_, fun before id left right hstmts => ?_⟩
  · have hagree := Degree.agree_ofStmts_swapped h (fun _ _ _ h => h) Degree.none
    rw [hdegree, d.degree_withStmts hinput, Floats.abs_congr hagree]
  · exact ⟨Degree.ofSum_of_abs_beq h.1, Degree.ofSum_of_abs_beq (Floats.abs_beq_comm h.1)⟩
  · rw [hdegree, d.degree_withStmts hinput, hstmts, Degree.ofStmts_append_expr,
      Degree.ofStmts_append_expr]
    exact congrArg Except.ok (Degree.abs_ofSum_comm _ _)

/-- `f(x) = x * (left + right)` -/
def timesSum (left right : Expr) : Define :=
  let binary := Expr.binary unnumbered
  { id := unnumbered
    name := "f"
    params := { id := unnumbered, params := [{ id := unnumbered, name := "x" }] }
    body :=
      { id := unnumbered
        stmts := [.expr (binary .multiply (.var unnumbered "x") (binary .add left right))] } }

/-- `1 / x` -/
def reciprocal : Expr :=
  .binary unnumbered .divide (.number unnumbered 1 none) (.var unnumbered "x")

/-- `x ^ 2` -/
def square : Expr :=
  .binary unnumbered .exponentiate (.var unnumbered "x") (.number unnumbered 2 none)

theorem Define.degree_swapped_square :
    (timesSum square reciprocal).params.params = [{ id := unnumbered, name := "x" }] ∧
      (timesSum reciprocal square).degree = (timesSum square reciprocal).degree ∧
      Degree.Opposite 1 (-1) ∧ Degree.ofSum 1 (-1) = -1 ∧
      ((timesSum square reciprocal).withStmts
          [.expr (.binary unnumbered .add reciprocal square)]).degree =
        ((timesSum square reciprocal).withStmts
          [.expr (.binary unnumbered .add square reciprocal)]).degree := by
  have hunordered : Degree.Unordered (Table.empty.insert "x" 1) square reciprocal := by decide +kernel
  have hopposite : Degree.Opposite 1 (-1) := by decide +kernel
  obtain ⟨hswapped, hsum, -⟩ := Define.degree_swapped (timesSum square reciprocal) rfl
  obtain ⟨-, -, hlast⟩ := Define.degree_swapped
    ((timesSum square reciprocal).withStmts [.expr (.binary unnumbered .add square reciprocal)]) rfl
  exact ⟨rfl, hswapped _ (.expr (.right (.sum hunordered))), hopposite, (hsum 1 (-1) hopposite).1,
    hlast [] unnumbered square reciprocal rfl⟩

/-- The degrees of `x` and of `1 / x` are opposite. -/
example : (timesSum (.var unnumbered "x") reciprocal).degree = .ok 0 ∧
    (timesSum reciprocal (.var unnumbered "x")).degree = .ok 2 := by
  decide +kernel

end Abacus
