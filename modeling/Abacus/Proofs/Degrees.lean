import Mathlib
import Abacus.Degree
import Abacus.Proofs.Float.Naturals

/-!
# The degree of a polynomial

Over the rational numbers a body that is written with numbers, known variables, `+`, `-`, `*`, negation
and natural powers is a polynomial in the parameter. The formal degree counts with natural numbers how
often the parameter is multiplied into it. It stands between the two sides that are compared here: the
floats of the analysis are the formal degrees as long as these stay below `2 ^ 53`
(`Degree.whole_ofStmts`), and the formal degree bounds the degree of the polynomial
(`Stmt.degree_exactLast`). Each side is followed through a body by what it knows of the variables
that have been assigned, the parameter among them, which an assignment may overwrite.
-/
namespace Abacus

/-! ## Exact arithmetic -/

/-- The power with a natural exponent. Any other power is not needed here. -/
def exactPower (base exponent : ℚ) : Option ℚ :=
  if exponent.den = 1 ∧ 0 ≤ exponent.num then some (base ^ exponent.num.toNat) else none

theorem exactPower_natCast (base : ℚ) (k : ℕ) : exactPower base k = some (base ^ k) := by
  simp [exactPower]

/-- What an operator makes of two rational numbers. Quotients and remainders are left out: they are no
polynomials. -/
def Operator.exact : Operator → ℚ → ℚ → Option ℚ
  | .add, l, r => some (l + r)
  | .subtract, l, r => some (l - r)
  | .multiply, l, r => some (l * r)
  | .exponentiate, l, r => exactPower l r
  | .divide, _, _ => none
  | .modulo, _, _ => none

/-- The value of an expression over the rational numbers, where a literal stands for the number that
its float is. -/
def Expr.exactValue (values : Table String ℚ) : Expr → Option ℚ
  | .number _ value _ => if value.isFinite then some (Dyadic.ofFloat value).value else none
  | .var _ name => values.get? name
  | .binary _ op left right =>
    (left.exactValue values).bind fun l => (right.exactValue values).bind fun r => op.exact l r
  | .negate _ operand => (operand.exactValue values).map (- ·)
  | .call _ _ _ => none

/-- The value of the last statement, or `last` if there is no statement. -/
def Stmt.exactLast (values : Table String ℚ) (last : Option ℚ) : List Stmt → Option ℚ
  | [] => last
  | .assign _ name value :: rest =>
    (value.exactValue values).bind fun v => exactLast (values.insert name v) none rest
  | .expr e :: rest => (e.exactValue values).bind fun v => exactLast values (some v) rest
  | .define _ _ _ _ _ :: rest => exactLast values none rest

/-- The value of a function at these arguments over the rational numbers. -/
def Define.exactValue (d : Define) (args : List ℚ) : Option ℚ :=
  Stmt.exactLast (Table.ofList (d.params.names.zip args)) none d.body.stmts

/-! ## Polynomials as they are written -/

/-- The number that a literal stands for, if it is a natural one. -/
def Expr.natural? : Expr → Option ℕ
  | .number _ value _ => Decimal.whole? value
  | _ => none

/-- The expression is built of finite numbers, these variables, `+`, `-`, `*`, negation, and `^` with a
natural number as its exponent. -/
def Expr.IsPolynomial (known : List String) : Expr → Prop
  | .number _ value _ => value.isFinite = true
  | .var _ name => name ∈ known
  | .binary _ op left right =>
    match op with
    | .add | .subtract | .multiply => left.IsPolynomial known ∧ right.IsPolynomial known
    | .exponentiate => left.IsPolynomial known ∧ right.natural?.isSome
    | .divide | .modulo => False
  | .negate _ operand => operand.IsPolynomial known
  | .call _ _ _ => False

/-- Assignments and expressions of this kind, each of which may use what was assigned before it. -/
def Stmt.ArePolynomial (known : List String) : List Stmt → Prop
  | [] => True
  | .assign _ name value :: rest => value.IsPolynomial known ∧ ArePolynomial (name :: known) rest
  | .expr e :: rest => e.IsPolynomial known ∧ ArePolynomial known rest
  | .define _ _ _ _ _ :: _ => False

/-- The function is written as a polynomial, and its body ends in an expression. -/
def Define.IsPolynomial (d : Define) : Prop :=
  Stmt.ArePolynomial d.params.names d.body.stmts ∧ ∃ e, d.body.stmts.getLast? = some (.expr e)

/-! ## Formal degrees -/

/-- How often the parameter is multiplied into an expression, by what is known of the variables. The
operators that no polynomial is written with count as sums. -/
def Expr.formalDegree (degrees : Table String ℕ) : Expr → ℕ
  | .number _ _ _ => 0
  | .var _ name => (degrees.get? name).getD 0
  | .binary _ op left right =>
    match op with
    | .multiply => left.formalDegree degrees + right.formalDegree degrees
    | .exponentiate => left.formalDegree degrees * right.natural?.getD 0
    | _ => max (left.formalDegree degrees) (right.formalDegree degrees)
  | .negate _ operand => operand.formalDegree degrees
  | .call _ _ _ => 0

/-- The formal degrees of an expression and of every part of it. -/
def Expr.degreesIn (degrees : Table String ℕ) : Expr → List ℕ
  | .number _ _ _ => [0]
  | .var id name => [(Expr.var id name).formalDegree degrees]
  | .binary id op left right =>
    (Expr.binary id op left right).formalDegree degrees ::
      (left.degreesIn degrees ++ right.degreesIn degrees)
  | .negate id operand =>
    (Expr.negate id operand).formalDegree degrees :: operand.degreesIn degrees
  | .call _ _ _ => []

/-- The formal degree of the last statement, or `last` if there is no statement. -/
def Stmt.formalDegree (degrees : Table String ℕ) (last : ℕ) : List Stmt → ℕ
  | [] => last
  | .assign _ name value :: rest =>
    formalDegree (degrees.insert name (value.formalDegree degrees)) 0 rest
  | .expr e :: rest => formalDegree degrees (e.formalDegree degrees) rest
  | .define _ _ _ _ _ :: rest => formalDegree degrees 0 rest

def Stmt.degreesIn (degrees : Table String ℕ) : List Stmt → List ℕ
  | [] => []
  | .assign _ name value :: rest =>
    value.degreesIn degrees ++
      degreesIn (degrees.insert name (value.formalDegree degrees)) rest
  | .expr e :: rest => e.degreesIn degrees ++ degreesIn degrees rest
  | .define _ _ _ _ _ :: rest => degreesIn degrees rest

/-- A parameter has degree one. -/
def ParamList.degrees (ps : ParamList) : Table String ℕ :=
  .ofList (ps.names.map fun name => (name, 1))

def Define.formalDegree (d : Define) : ℕ :=
  Stmt.formalDegree d.params.degrees 0 d.body.stmts

/-- All formal degrees that come up in the body of a function. -/
def Define.degreesIn (d : Define) : List ℕ :=
  Stmt.degreesIn d.params.degrees d.body.stmts

theorem Expr.formalDegree_mem {known : List String} (degrees : Table String ℕ) :
    ∀ e : Expr, e.IsPolynomial known → e.formalDegree degrees ∈ e.degreesIn degrees
  | .number _ _ _, _ => List.mem_singleton_self _
  | .var _ _, _ => List.mem_singleton_self _
  | .binary _ _ _ _, _ => List.mem_cons_self
  | .negate _ _, _ => List.mem_cons_self
  | .call _ _ _, h => h.elim

theorem Stmt.getLast?_of_cons {s t : Stmt} {rest : List Stmt} (h : (s :: rest).getLast? = some t)
    (hrest : rest ≠ []) : rest.getLast? = some t := by
  cases rest with
  | nil => exact absurd rfl hrest
  | cons s' rest => rwa [List.getLast?_cons_cons] at h

/-! ## The analysis counts formal degrees -/

namespace Degree

theorem constantValue_number (id : NodeId) (value : Float) (source : Option String) :
    constantValue (.number id value source) = value :=
  rfl

theorem ofExpr_of_natural {floats : Table String Float} {exponent : Expr} {k : ℕ}
    (h : exponent.natural? = some k) : ofExpr floats exponent = 0 := by
  cases exponent with
  | number id value source => rfl
  | _ => cases h

/-- The analysis knows the degrees of these variables as floats. -/
def Knows (known : List String) (floats : Table String Float) (degrees : Table String ℕ) : Prop :=
  ∀ name ∈ known, ∃ x n, floats.get? name = some x ∧ degrees.get? name = some n ∧
    Decimal.whole? x = some n

theorem Knows.nil (floats : Table String Float) (degrees : Table String ℕ) :
    Knows [] floats degrees :=
  fun _ h => (List.not_mem_nil h).elim

theorem Knows.insert {known : List String} {floats : Table String Float}
    {degrees : Table String ℕ} (h : Knows known floats degrees) (name : String) {x : Float} {n : ℕ}
    (hx : Decimal.whole? x = some n) :
    Knows (name :: known) (floats.insert name x) (degrees.insert name n) := by
  intro other hother
  by_cases hname : name = other
  · subst hname
    exact ⟨x, n, Table.get?_insert_self .., Table.get?_insert_self .., hx⟩
  · rw [Table.get?_insert_of_ne _ _ hname, Table.get?_insert_of_ne _ _ hname]
    exact h other (List.mem_of_ne_of_mem (Ne.symm hname) hother)

theorem whole_ofSum {left right : Float} {a b : ℕ} (hleft : Decimal.whole? left = some a)
    (hright : Decimal.whole? right = some b) (ha : a < 2 ^ 53) (hb : b < 2 ^ 53) :
    Decimal.whole? (ofSum left right) = some (max a b) := by
  have hgreater : left.abs > right.abs ↔ b < a := by
    rw [Floats.abs_of_whole hleft ha, Floats.abs_of_whole hright hb]
    exact Floats.ofNat_lt_ofNat hb ha
  rw [ofSum, Floats.isNaN_of_whole hleft, Floats.isNaN_of_whole hright, Bool.or_false, if_neg (by simp)]
  by_cases h : b < a
  · rw [if_pos (hgreater.mpr h), hleft, max_eq_left h.le]
  · rw [if_neg (hgreater.not.mpr h), hright, max_eq_right (Nat.le_of_not_lt h)]

theorem whole_ofPower {left : Float} {a k : ℕ} {exponent : Expr}
    (hleft : Decimal.whole? left = some a) (hexponent : exponent.natural? = some k)
    (hlt : a * k < 2 ^ 53) : Decimal.whole? (ofPower left 0 exponent) = some (a * k) := by
  cases exponent with
  | number id value source =>
    have hconstant : ((0 : Float) != 0) = false := by decide
    rw [ofPower, Floats.isNaN_of_whole hleft, hconstant, Bool.or_false, if_neg (by simp),
      constantValue_number]
    exact Floats.whole_mul hleft hexponent hlt
  | _ => cases hexponent

theorem whole_ofExpr {known : List String} {floats : Table String Float}
    {degrees : Table String ℕ} (hknows : Knows known floats degrees) :
    ∀ e : Expr, e.IsPolynomial known → (∀ n ∈ e.degreesIn degrees, n < 2 ^ 53) →
      Decimal.whole? (ofExpr floats e) = some (e.formalDegree degrees)
  | .number _ _ _, _, _ => Floats.whole_ofNat (by decide)
  | .var _ name, hname, _ => by
    obtain ⟨x, n, hfloat, hdegree, hx⟩ := hknows name hname
    rw [ofExpr, Expr.formalDegree, hfloat, hdegree]
    exact hx
  | .negate _ operand, hpoly, hsmall =>
    whole_ofExpr hknows operand hpoly fun n hn => hsmall n (List.mem_cons_of_mem _ hn)
  | .binary id op left right, hpoly, hsmall => by
    have htotal := hsmall _ List.mem_cons_self
    have hsmallLeft : ∀ n ∈ left.degreesIn degrees, n < 2 ^ 53 := fun n hn =>
      hsmall n (List.mem_cons_of_mem _ (List.mem_append_left _ hn))
    have hsmallRight : ∀ n ∈ right.degreesIn degrees, n < 2 ^ 53 := fun n hn =>
      hsmall n (List.mem_cons_of_mem _ (List.mem_append_right _ hn))
    cases op with
    | multiply =>
      exact Floats.whole_add (whole_ofExpr hknows left hpoly.1 hsmallLeft)
        (whole_ofExpr hknows right hpoly.2 hsmallRight) htotal
    | add | subtract =>
      exact whole_ofSum (whole_ofExpr hknows left hpoly.1 hsmallLeft)
        (whole_ofExpr hknows right hpoly.2 hsmallRight)
        (hsmallLeft _ (left.formalDegree_mem degrees hpoly.1))
        (hsmallRight _ (right.formalDegree_mem degrees hpoly.2))
    | exponentiate =>
      obtain ⟨hbase, hexponent⟩ := hpoly
      obtain ⟨k, hk⟩ := Option.isSome_iff_exists.mp hexponent
      have hdegree : (Expr.binary id .exponentiate left right).formalDegree degrees =
          left.formalDegree degrees * k := by
        rw [Expr.formalDegree, hk, Option.getD_some]
      rw [hdegree] at htotal ⊢
      rw [ofExpr, ofExpr_of_natural hk]
      exact whole_ofPower (whole_ofExpr hknows left hbase hsmallLeft) hk htotal
    | divide | modulo => exact hpoly.elim
  | .call _ _ _, hpoly, _ => hpoly.elim

/-- The analysis comes to the formal degree of a body that ends in an expression. -/
theorem whole_ofStmts {e : Expr} : ∀ (stmts : List Stmt) {known : List String}
    {floats : Table String Float} {degrees : Table String ℕ} (start : Float) (start' : ℕ),
    Knows known floats degrees → Stmt.ArePolynomial known stmts →
    stmts.getLast? = some (.expr e) → (∀ n ∈ Stmt.degreesIn degrees stmts, n < 2 ^ 53) →
      Decimal.whole? (ofStmts floats start stmts) = some (Stmt.formalDegree degrees start' stmts) ∧
        Stmt.formalDegree degrees start' stmts < 2 ^ 53
  | [], _, _, _, _, _, _, _, hlast, _ => by cases hlast
  | .assign _ name value :: rest, _, floats, degrees, _, _, hknows, hpoly, hlast, hsmall => by
    have hvalue := whole_ofExpr hknows value hpoly.1 fun n hn => hsmall n (List.mem_append_left _ hn)
    have hrest : rest ≠ [] := by rintro rfl; cases hlast
    exact whole_ofStmts rest none 0 (hknows.insert name hvalue) hpoly.2
      (Stmt.getLast?_of_cons hlast hrest) fun n hn => hsmall n (List.mem_append_right _ hn)
  | .expr value :: rest, _, floats, degrees, _, _, hknows, hpoly, hlast, hsmall => by
    have hvalue := whole_ofExpr hknows value hpoly.1 fun n hn => hsmall n (List.mem_append_left _ hn)
    by_cases hrest : rest = []
    · subst hrest
      exact ⟨hvalue, hsmall _ (List.mem_append_left _ (value.formalDegree_mem degrees hpoly.1))⟩
    · exact whole_ofStmts rest _ _ hknows hpoly.2 (Stmt.getLast?_of_cons hlast hrest)
        fun n hn => hsmall n (List.mem_append_right _ hn)
  | .define _ _ _ _ _ :: _, _, _, _, _, _, _, hpoly, _, _ => hpoly.elim

end Degree

/-! ## Formal degrees bound degrees -/

/-- As a function of the parameter, a value is a polynomial of at most this degree. -/
def HasDegreeAtMost (value : ℚ → Option ℚ) (n : ℕ) : Prop :=
  ∃ p : Polynomial ℚ, p.natDegree ≤ n ∧ ∀ x, value x = some (p.eval x)

namespace HasDegreeAtMost

open Polynomial

variable {f g : ℚ → Option ℚ} {m n : ℕ}

theorem const (c : ℚ) : HasDegreeAtMost (fun _ => some c) 0 :=
  ⟨C c, (natDegree_C c).le, fun _ => by rw [eval_C]⟩

theorem parameter : HasDegreeAtMost some 1 :=
  ⟨X, natDegree_X_le, fun _ => by rw [eval_X]⟩

theorem neg (hf : HasDegreeAtMost f n) : HasDegreeAtMost (fun x => (f x).map (- ·)) n := by
  obtain ⟨p, hp, hvalue⟩ := hf
  exact ⟨-p, (natDegree_neg p).trans_le hp, fun x => by simp only [hvalue, Option.map_some, eval_neg]⟩

/-- An operation that polynomials have as well. -/
theorem binary {op : ℚ → ℚ → ℚ} {opPoly : ℚ[X] → ℚ[X] → ℚ[X]} {k : ℕ}
    (heval : ∀ p q x, (opPoly p q).eval x = op (p.eval x) (q.eval x))
    (hdegree : ∀ p q, p.natDegree ≤ m → q.natDegree ≤ n → (opPoly p q).natDegree ≤ k)
    (hf : HasDegreeAtMost f m) (hg : HasDegreeAtMost g n) :
    HasDegreeAtMost (fun x => (f x).bind fun l => (g x).bind fun r => some (op l r)) k := by
  obtain ⟨p, hp, hvalue⟩ := hf
  obtain ⟨q, hq, hvalue'⟩ := hg
  refine ⟨opPoly p q, hdegree p q hp hq, fun x => ?_⟩
  simp only [hvalue, hvalue', Option.bind_some, heval]

theorem add : HasDegreeAtMost f m → HasDegreeAtMost g n →
    HasDegreeAtMost (fun x => (f x).bind fun l => (g x).bind fun r => some (l + r)) (max m n) :=
  binary (fun _ _ _ => eval_add) fun p q hp hq => (natDegree_add_le p q).trans (max_le_max hp hq)

theorem sub : HasDegreeAtMost f m → HasDegreeAtMost g n →
    HasDegreeAtMost (fun x => (f x).bind fun l => (g x).bind fun r => some (l - r)) (max m n) :=
  binary eval_sub fun p q hp hq => (natDegree_sub_le p q).trans (max_le_max hp hq)

theorem mul : HasDegreeAtMost f m → HasDegreeAtMost g n →
    HasDegreeAtMost (fun x => (f x).bind fun l => (g x).bind fun r => some (l * r)) (m + n) :=
  binary (fun _ _ _ => eval_mul) fun _ _ hp hq => natDegree_mul_le.trans (add_le_add hp hq)

theorem pow (hf : HasDegreeAtMost f n) (k : ℕ) :
    HasDegreeAtMost (fun x => (f x).bind fun l => exactPower l k) (n * k) := by
  obtain ⟨p, hp, hvalue⟩ := hf
  refine ⟨p ^ k, natDegree_pow_le.trans ?_, fun x => ?_⟩
  · rw [Nat.mul_comm n k]
    exact Nat.mul_le_mul_left k hp
  · simp only [hvalue, Option.bind_some, exactPower_natCast, eval_pow]

end HasDegreeAtMost

/-- As functions of the parameter, the variables are polynomials of at most these degrees. -/
def Bounds (known : List String) (degrees : Table String ℕ) (values : ℚ → Table String ℚ) : Prop :=
  ∀ name ∈ known, ∃ n, degrees.get? name = some n ∧ HasDegreeAtMost (fun x => (values x).get? name) n

theorem Bounds.nil (degrees : Table String ℕ) (values : ℚ → Table String ℚ) :
    Bounds [] degrees values :=
  fun _ h => (List.not_mem_nil h).elim

theorem Bounds.insert {known : List String} {degrees : Table String ℕ}
    {values : ℚ → Table String ℚ} (h : Bounds known degrees values) (name : String) {n : ℕ}
    {value : ℚ → ℚ} (hvalue : HasDegreeAtMost (fun x => some (value x)) n) :
    Bounds (name :: known) (degrees.insert name n) fun x => (values x).insert name (value x) := by
  intro other hother
  by_cases hname : name = other
  · subst hname
    simp only [Table.get?_insert_self]
    exact ⟨n, rfl, hvalue⟩
  · simp only [Table.get?_insert_of_ne _ _ hname]
    exact h other (List.mem_of_ne_of_mem (Ne.symm hname) hother)

theorem Expr.exactValue_of_natural {exponent : Expr} {k : ℕ} (h : exponent.natural? = some k)
    (values : Table String ℚ) : exponent.exactValue values = some (k : ℚ) := by
  cases exponent with
  | number id value source =>
    rw [exactValue, if_pos (Floats.isFinite_of_whole h), Floats.value_of_whole h]
  | _ => cases h

theorem Expr.degree_exactValue {known : List String} {degrees : Table String ℕ}
    {values : ℚ → Table String ℚ} (hbounds : Bounds known degrees values) :
    ∀ e : Expr, e.IsPolynomial known →
      HasDegreeAtMost (fun x => e.exactValue (values x)) (e.formalDegree degrees)
  | .number _ value _, hfinite => by
    have hvalue : value.isFinite = true := hfinite
    simp only [exactValue, if_pos hvalue]
    exact .const _
  | .var _ name, hname => by
    obtain ⟨n, hdegree, hvalue⟩ := hbounds name hname
    rw [formalDegree, hdegree]
    exact hvalue
  | .negate _ operand, hpoly => (operand.degree_exactValue hbounds hpoly).neg
  | .binary id op left right, hpoly => by
    cases op with
    | add =>
      exact (left.degree_exactValue hbounds hpoly.1).add
        (right.degree_exactValue hbounds hpoly.2)
    | subtract =>
      exact (left.degree_exactValue hbounds hpoly.1).sub
        (right.degree_exactValue hbounds hpoly.2)
    | multiply =>
      exact (left.degree_exactValue hbounds hpoly.1).mul
        (right.degree_exactValue hbounds hpoly.2)
    | exponentiate =>
      obtain ⟨hbase, hexponent⟩ := hpoly
      obtain ⟨k, hk⟩ := Option.isSome_iff_exists.mp hexponent
      simp only [exactValue, formalDegree, hk, Option.getD_some, exactValue_of_natural hk,
        Option.bind_some]
      exact (left.degree_exactValue hbounds hbase).pow k
    | divide | modulo => exact hpoly.elim
  | .call _ _ _, hpoly => hpoly.elim

/-- Statement by statement, the value of a body that ends in an expression is a polynomial. -/
theorem Stmt.degree_exactLast {e : Expr} : ∀ (stmts : List Stmt) {known : List String}
    {degrees : Table String ℕ} {values : ℚ → Table String ℚ} (start : ℚ → Option ℚ) (start' : ℕ),
    Bounds known degrees values → ArePolynomial known stmts → stmts.getLast? = some (.expr e) →
      HasDegreeAtMost (fun x => exactLast (values x) (start x) stmts) (formalDegree degrees start' stmts)
  | [], _, _, _, _, _, _, _, hlast => by cases hlast
  | .assign _ name value :: rest, _, degrees, values, _, _, hbounds, hpoly, hlast => by
    obtain ⟨p, hp, hvalue⟩ := value.degree_exactValue hbounds hpoly.1
    have hrest : rest ≠ [] := by rintro rfl; cases hlast
    simp only [exactLast, hvalue, Option.bind_some]
    exact degree_exactLast rest (fun _ => none) 0
      (hbounds.insert name ⟨p, hp, fun _ => rfl⟩) hpoly.2 (getLast?_of_cons hlast hrest)
  | .expr value :: rest, _, degrees, values, _, _, hbounds, hpoly, hlast => by
    obtain ⟨p, hp, hvalue⟩ := value.degree_exactValue hbounds hpoly.1
    simp only [exactLast, hvalue, Option.bind_some]
    by_cases hrest : rest = []
    · subst hrest
      exact ⟨p, hp, fun _ => rfl⟩
    · exact degree_exactLast rest (fun x => some (p.eval x)) _ hbounds hpoly.2
        (getLast?_of_cons hlast hrest)
  | .define _ _ _ _ _ :: _, _, _, _, _, _, _, hpoly, _ => hpoly.elim

/-- **The degree bounds the degree of a polynomial.** A function of one parameter that is written as a
polynomial has a degree, which is the natural number that its formal degree is, and over the rational
numbers its value is a polynomial in the parameter of at most this degree. -/
theorem Define.degree_bounds (d : Define) (hparams : d.params.params.length = 1)
    (hpoly : d.IsPolynomial) (hsmall : ∀ n ∈ d.degreesIn, n < 2 ^ 53) :
    ∃ degree : Float, d.degree = .ok degree ∧ Decimal.whole? degree = some d.formalDegree ∧
      HasDegreeAtMost (fun x => d.exactValue [x]) d.formalDegree := by
  obtain ⟨input, hinput⟩ := List.length_eq_one_iff.mp hparams
  obtain ⟨hstmts, e, hlast⟩ := hpoly
  have hnames : d.params.names = [input.name] := by rw [ParamList.names, hinput]; rfl
  have hdegrees : d.params.degrees = Table.empty.insert input.name 1 := by
    rw [ParamList.degrees, hnames]; rfl
  rw [hnames] at hstmts
  have hknows : Degree.Knows [input.name] (Table.empty.insert input.name 1) d.params.degrees := by
    rw [hdegrees]
    exact (Degree.Knows.nil _ _).insert input.name (Floats.whole_ofNat (by decide))
  have hbounds : Bounds [input.name] d.params.degrees fun x => Table.empty.insert input.name x := by
    rw [hdegrees]
    exact (Bounds.nil _ fun _ => Table.empty).insert input.name .parameter
  obtain ⟨hwhole, hlt⟩ :=
    Degree.whole_ofStmts d.body.stmts Degree.none 0 hknows hstmts hlast hsmall
  refine ⟨Float.ofNat d.formalDegree, ?_, Floats.whole_ofNat hlt, ?_⟩
  · rw [Define.degree, hinput]
    exact congrArg Except.ok (Floats.abs_of_whole hwhole hlt)
  · simp only [Define.exactValue, hnames]
    exact Stmt.degree_exactLast d.body.stmts (fun _ => none) 0 hbounds hstmts hlast

/-- `f(x) = { y = 3x^2 - 1; x = y * -x; x; (x + y)^2 * 0.5 - x^0 }` -/
def overwritten : Define :=
  let x := Expr.var unnumbered "x"
  let y := Expr.var unnumbered "y"
  let literal := fun value => Expr.number unnumbered value none
  let binary := Expr.binary unnumbered
  { id := unnumbered
    name := "f"
    params := { id := unnumbered, params := [{ id := unnumbered, name := "x" }] }
    body :=
      { id := unnumbered
        stmts :=
          [ .assign unnumbered "y" (binary .subtract
              (binary .multiply (literal 3) (binary .exponentiate x (literal 2))) (literal 1)),
            .assign unnumbered "x" (binary .multiply y (.negate unnumbered x)),
            .expr x,
            .expr (binary .subtract
              (binary .multiply (binary .exponentiate (binary .add x y) (literal 2)) (literal 0.5))
              (binary .exponentiate x (literal 0))) ] } }

theorem Define.degree_bounds_overwritten :
    overwritten.params.params.length = 1 ∧ overwritten.IsPolynomial ∧
      (∀ n ∈ overwritten.degreesIn, n < 2 ^ 53) ∧ overwritten.formalDegree = 6 ∧
      ∃ degree : Float, overwritten.degree = .ok degree ∧
        Decimal.whole? degree = some overwritten.formalDegree ∧
        HasDegreeAtMost (fun x => overwritten.exactValue [x]) overwritten.formalDegree := by
  have hpoly : overwritten.IsPolynomial := by
    refine ⟨?_, _, rfl⟩
    simp only [overwritten, Stmt.ArePolynomial, Expr.IsPolynomial]
    decide
  have hsmall : ∀ n ∈ overwritten.degreesIn, n < 2 ^ 53 := by decide
  exact ⟨rfl, hpoly, hsmall, by decide, Define.degree_bounds overwritten rfl hpoly hsmall⟩

end Abacus
