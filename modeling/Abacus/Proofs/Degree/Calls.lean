import Abacus.Degree
import Abacus.Proofs.Compiled
import Abacus.Proofs.Float.Special
import Abacus.Proofs.Names.Basic

/-!
# The analysis of degrees calls nothing

The degree of a function is found without running it, but the exponents in it are run: an exponent
of degree zero is taken for a constant, and the machine is asked for its value. Such an exponent
must not call anything, or the analysis would print, or run a function of the program.

It does not, because no operator loses the NaN of an operand: an expression in which something is
called or in which a variable is not known has the degree NaN (`Degree.isNaN_ofExpr`), which is not
zero. What the machine is asked for is seen when the analysis runs with a machine that keeps a
record (`Define.asked`), and what such an expression may come to is seen from its meaning
(`Expr.eval_quiet`).
-/
namespace Abacus

/-! ## Expressions without calls -/

/-- Somewhere in the expression a function is called, be it built in or not. -/
def Expr.HasCall : Expr → Prop
  | .number _ _ _ => False
  | .var _ _ => False
  | .binary _ _ left right => left.HasCall ∨ right.HasCall
  | .negate _ operand => operand.HasCall
  | .call _ _ _ => True

theorem Expr.counted_of_not_hasCall : ∀ e : Expr, ¬e.HasCall → e.Counted
  | .number _ _ _, _ => trivial
  | .var _ _, _ => trivial
  | .binary _ _ left right, h =>
    ⟨left.counted_of_not_hasCall fun hleft => h (.inl hleft),
      right.counted_of_not_hasCall fun hright => h (.inr hright)⟩
  | .negate _ operand, h => operand.counted_of_not_hasCall h
  | .call _ _ _, h => absurd trivial h

/-- The errors of expressions without calls. -/
def RuntimeError.OfOperators (e : RuntimeError) : Prop :=
  e = .divisionByZero ∨ ∃ name, e = .unknownVariable name

/-- Nothing is reported, and an error is one of an expression without calls. -/
structure Traced.Quiet {α : Type} (x : Traced RuntimeError α) : Prop where
  events : x.events = []
  errors : ∀ e, x.result = .error e → e.OfOperators

namespace Traced.Quiet

variable {α β : Type}

theorem pure (a : α) : (Pure.pure a : Traced RuntimeError α).Quiet :=
  ⟨rfl, nofun⟩

theorem fail {e : RuntimeError} (h : e.OfOperators) : (Traced.fail e : Traced RuntimeError α).Quiet := by
  refine ⟨rfl, fun e' he => ?_⟩
  obtain rfl := Except.error.inj he
  exact h

theorem bind {x : Traced RuntimeError α} {f : α → Traced RuntimeError β} (hx : x.Quiet)
    (hf : ∀ a, (f a).Quiet) : (x >>= f).Quiet := by
  constructor
  · rw [bind_eq]
    cases x.result with
    | error e => exact hx.events
    | ok a => simp [hx.events, (hf a).events]
  · intro e he
    rcases result_bind_error he with he | ⟨a, -, he⟩
    · exact hx.errors e he
    · exact (hf a).errors e he

end Traced.Quiet

theorem Builtin.call_quiet (op : Operator) (x y : Float) :
    ((Builtin.ofOperator op).call [x, y]).Quiet := by
  cases op with
  | divide =>
    unfold Builtin.ofOperator Builtin.call
    dsimp only
    split
    · exact .fail (.inl rfl)
    · exact .pure _
  | _ => exact .pure _

theorem Expr.eval_quiet {limit : Option Nat} {depth : Nat} {s : Env} :
    ∀ e : Expr, ¬e.HasCall → (e.eval limit depth s).Quiet
  | .number _ value _, _ => .pure value
  | .var _ name, _ => by
    unfold Expr.eval
    split
    · exact .pure _
    · exact .fail (.inr ⟨name, rfl⟩)
  | .binary _ op left right, h =>
    .bind (right.eval_quiet fun hright => h (.inr hright)) fun y =>
      .bind (left.eval_quiet fun hleft => h (.inl hleft)) fun x => Builtin.call_quiet op x y
  | .negate _ operand, h => .bind (operand.eval_quiet h) fun _ => .pure _
  | .call _ _ _, h => absurd trivial h

/-- An expression on its own runs to what it means. -/
theorem Expr.run_compile (e : Expr) (he : e.Counted) (locals : Locals) (limit : Option Nat) :
    e.compile.run locals limit = e.eval limit 0 (.ofLocals locals) := by
  have hcall : Calls limit 0 (Frame.call limit 0 (Code.entering limit e.compile.nesting 0))
      (.ofLocals locals) (.ofLocals locals) := (Frame.Matches.ofLocals locals).calls 0
  rw [Code.run, Code.runIn_eq, Code.runWith]
  simp only [Expr.steps_compile hcall rfl e [] he, bind_assoc, pure_bind, Stack.result]
  exact bind_pure _

/-! ## NaN is not lost -/

namespace Degree

open Floats

theorem isNaN_none : none.isNaN = true := rfl

theorem isNaN_ofSum {left right : Float} (h : left.isNaN = true ∨ right.isNaN = true) :
    (ofSum left right).isNaN = true := by
  rw [ofSum, if_pos (Bool.or_eq_true_iff.mpr h)]
  exact isNaN_none

theorem isNaN_ofPower {left right : Float} (h : left.isNaN = true ∨ right.isNaN = true)
    (exponent : Expr) : (ofPower left right exponent).isNaN = true := by
  rw [ofPower, if_pos (Bool.or_eq_true_iff.mpr (h.imp_right bne_zero_of_isNaN))]
  exact isNaN_none

/-- The expression calls something or uses a variable whose degree is not in the table. -/
def Indeterminate (degrees : Table String Float) (e : Expr) : Prop :=
  e.HasCall ∨ ∃ use ∈ e.variables, degrees.get? use.2 = Option.none

theorem Indeterminate.operand {degrees : Table String Float} {id : NodeId} {op : Operator}
    {left right : Expr} (h : Indeterminate degrees (.binary id op left right)) :
    Indeterminate degrees left ∨ Indeterminate degrees right := by
  obtain (hleft | hright) | ⟨use, huse, hmissing⟩ := h
  · exact .inl (.inl hleft)
  · exact .inr (.inl hright)
  · rcases List.mem_append.mp huse with hleft | hright
    · exact .inl (.inr ⟨use, hleft, hmissing⟩)
    · exact .inr (.inr ⟨use, hright, hmissing⟩)

theorem isNaN_ofExpr {degrees : Table String Float} : ∀ e : Expr, Indeterminate degrees e →
    (ofExpr degrees e).isNaN = true
  | .number _ _ _, h => by
    rcases h with h | ⟨use, huse, -⟩
    · exact h.elim
    · exact absurd huse (List.not_mem_nil)
  | .var id name, h => by
    rcases h with h | ⟨use, huse, hmissing⟩
    · exact h.elim
    · obtain rfl := List.mem_singleton.mp huse
      rw [ofExpr, hmissing]
      exact isNaN_none
  | .negate _ operand, h => isNaN_ofExpr operand h
  | .call _ _ _, _ => isNaN_none
  | .binary _ op left right, h => by
    have hoperand : (ofExpr degrees left).isNaN = true ∨ (ofExpr degrees right).isNaN = true :=
      h.operand.imp (isNaN_ofExpr left) (isNaN_ofExpr right)
    cases op with
    | multiply => exact isNaN_add hoperand
    | divide | modulo => exact isNaN_sub hoperand
    | add | subtract => exact isNaN_ofSum hoperand
    | exponentiate => exact isNaN_ofPower hoperand right

/-! ## Watching the analysis

The analysis is written once more, in any monad, with the machine as a parameter. Without effects
and with the machine that it has, it is the analysis itself (`Define.degreeIn_id`); with a machine
that keeps a record it says of which expressions the value is asked for. -/

section
variable {m : Type → Type} [Monad m] (ask : Expr → m Float)

def powerIn (left right : Float) (exponent : Expr) : m Float :=
  if left.isNaN || right != 0 then pure none
  else do
    let value ← ask exponent
    pure (left * value)

def exprIn (degrees : Table String Float) : Expr → m Float
  | .number _ _ _ => pure 0
  | .var _ name => pure ((degrees.get? name).getD none)
  | .negate _ operand => exprIn degrees operand
  | .call _ _ _ => pure none
  | .binary _ op left right => do
    let l ← exprIn degrees left
    let r ← exprIn degrees right
    match op with
    | .multiply => pure (l + r)
    | .divide | .modulo => pure (l - r)
    | .add | .subtract => pure (ofSum l r)
    | .exponentiate => powerIn ask l r right

def stmtsIn (degrees : Table String Float) (last : Float) : List Stmt → m Float
  | [] => pure last
  | .assign _ name value :: rest => do
    let degree ← exprIn ask degrees value
    stmtsIn (degrees.insert name degree) none rest
  | .expr e :: rest => do
    let degree ← exprIn ask degrees e
    stmtsIn degrees degree rest
  | .define _ _ _ _ _ :: rest => stmtsIn degrees none rest

end

/-- Asks the machine, and keeps a record of what it was asked for. -/
def record (e : Expr) : StateM (List Expr) Float := do
  modify (· ++ [e])
  pure (constantValue e)

end Degree

/-- `degree`, in any monad. -/
def Define.degreeIn {m : Type → Type} [Monad m] (ask : Expr → m Float) (d : Define) :
    m (Except DegreeError Float) :=
  match d.params.params with
  | [input] => do
    let degree ← Degree.stmtsIn ask (Table.empty.insert input.name 1) Degree.none d.body.stmts
    pure (.ok degree.abs)
  | params => pure (.error (.arity params.length))

/-- The expressions of which the machine is asked for the value, in order. -/
def Define.asked (d : Define) : List Expr :=
  ((d.degreeIn Degree.record).run []).2

namespace Degree

theorem exprIn_id (degrees : Table String Float) : ∀ e : Expr,
    exprIn (m := Id) constantValue degrees e = ofExpr degrees e
  | .number _ _ _ => rfl
  | .var _ _ => rfl
  | .negate _ operand => exprIn_id degrees operand
  | .call _ _ _ => rfl
  | .binary _ op left right => by
    have hleft := exprIn_id degrees left
    have hright := exprIn_id degrees right
    cases op with
    | exponentiate =>
      simp only [exprIn, ofExpr, ofPower, hleft, hright]
      unfold powerIn
      rfl
    | _ =>
      simp only [exprIn, ofExpr, hleft, hright]
      rfl

theorem stmtsIn_id (stmts : List Stmt) : ∀ (degrees : Table String Float) (last : Float),
    stmtsIn (m := Id) constantValue degrees last stmts = ofStmts degrees last stmts := by
  induction stmts with
  | nil => exact fun _ _ => rfl
  | cons s rest ih =>
    intro degrees last
    cases s with
    | assign _ name value => rw [stmtsIn, exprIn_id]; exact ih _ _
    | expr e => rw [stmtsIn, exprIn_id]; exact ih _ _
    | define _ _ _ _ _ => exact ih _ _

/-! ## What the machine is asked for -/

/-- The result that is recorded, with a record that has got longer by expressions of this kind. -/
def Records (P : Expr → Prop) (x : StateM (List Expr) Float) (value : Float) : Prop :=
  ∀ before, ∃ more, x.run before = (value, before ++ more) ∧ ∀ e ∈ more, P e

namespace Records

variable {P : Expr → Prop}

theorem pure (value : Float) : Records P (Pure.pure value) value :=
  fun before => ⟨[], by rw [List.append_nil]; rfl, fun _ h => absurd h List.not_mem_nil⟩

theorem bind {x : StateM (List Expr) Float} {f : Float → StateM (List Expr) Float} {v w : Float}
    (hx : Records P x v) (hf : Records P (f v) w) : Records P (x >>= f) w := by
  intro before
  obtain ⟨more, hmore, hP⟩ := hx before
  obtain ⟨more', hmore', hP'⟩ := hf (before ++ more)
  refine ⟨more ++ more', ?_, fun e he => (List.mem_append.mp he).elim (hP e) (hP' e)⟩
  rw [StateT.run_bind, hmore, ← List.append_assoc]
  exact hmore'

theorem record {e : Expr} (h : P e) : Records P (Degree.record e) (constantValue e) :=
  fun _ => ⟨[e], rfl, fun _ he => List.mem_singleton.mp he ▸ h⟩

end Records

/-- An exponent of which the machine is asked has degree zero, so it is not indeterminate. -/
theorem records_powerIn {degrees : Table String Float} {P : Expr → Prop} {exponent : Expr}
    (hP : ¬Indeterminate degrees exponent → P exponent) (left : Float) :
    Records P (powerIn record left (ofExpr degrees exponent) exponent)
      (ofPower left (ofExpr degrees exponent) exponent) := by
  unfold powerIn ofPower
  split
  next => exact .pure none
  next hdegree =>
    refine .bind (.record (hP fun h => hdegree ?_)) (.pure _)
    rw [Floats.bne_zero_of_isNaN (isNaN_ofExpr exponent h), Bool.or_true]

theorem records_exprIn (degrees : Table String Float) : ∀ e : Expr,
    Records (¬Indeterminate degrees ·) (exprIn record degrees e) (ofExpr degrees e)
  | .number _ _ _ => .pure 0
  | .var _ _ => .pure _
  | .negate _ operand => records_exprIn degrees operand
  | .call _ _ _ => .pure none
  | .binary _ op left right => by
    refine .bind (records_exprIn degrees left) (.bind (records_exprIn degrees right) ?_)
    cases op with
    | exponentiate => exact records_powerIn id _
    | _ => exact .pure _

theorem records_stmtsIn (stmts : List Stmt) : ∀ (degrees : Table String Float) (last : Float),
    Records (¬Expr.HasCall ·) (stmtsIn record degrees last stmts) (ofStmts degrees last stmts) := by
  have hexpr : ∀ degrees e,
      Records (¬Expr.HasCall ·) (exprIn record degrees e) (ofExpr degrees e) := by
    intro degrees e before
    obtain ⟨more, hmore, hdeterminate⟩ := records_exprIn degrees e before
    exact ⟨more, hmore, fun x hx hcall => hdeterminate x hx (.inl hcall)⟩
  induction stmts with
  | nil => exact fun _ last => .pure last
  | cons s rest ih =>
    intro degrees last
    cases s with
    | assign _ name value => exact .bind (hexpr degrees value) (ih _ _)
    | expr e => exact .bind (hexpr degrees e) (ih _ _)
    | define _ _ _ _ _ => exact ih _ _

end Degree

/-- The analysis with the machine as a parameter is the analysis. -/
theorem Define.degreeIn_id (d : Define) : d.degreeIn (m := Id) Degree.constantValue = d.degree := by
  unfold Define.degreeIn Define.degree
  generalize d.params.params = params
  match params with
  | [input] =>
    simp only [Degree.stmtsIn_id]
    rfl
  | [] => rfl
  | _ :: _ :: _ => rfl

/-- With a record the degree is the same, and nothing is called in what is recorded. -/
theorem Define.run_degreeIn_record (d : Define) :
    (d.degreeIn Degree.record).run [] = (d.degree, d.asked) ∧ ∀ e ∈ d.asked, ¬e.HasCall := by
  unfold Define.asked Define.degreeIn Define.degree
  generalize d.params.params = params
  match params with
  | [input] =>
    obtain ⟨more, hmore, hcall⟩ :=
      Degree.records_stmtsIn d.body.stmts (Table.empty.insert input.name 1) Degree.none []
    simp only [StateT.run_bind, hmore]
    exact ⟨rfl, hcall⟩
  | [] => exact ⟨rfl, fun _ h => absurd h List.not_mem_nil⟩
  | _ :: _ :: _ => exact ⟨rfl, fun _ h => absurd h List.not_mem_nil⟩

/-- **The analysis of degrees calls nothing.** An expression in which something is called, or in
which there is a variable that the table does not have, has the degree NaN. So the analysis asks the
machine only for expressions in which nothing is called. Their runs report nothing, in particular no
printed value, and end in a value, in a division by zero or in an unknown variable. -/
theorem Define.degree_calls_nothing :
    (∀ (degrees : Table String Float) (e : Expr),
      (e.HasCall ∨ ∃ use ∈ e.variables, degrees.get? use.2 = none) →
        (Degree.ofExpr degrees e).isNaN = true) ∧
    ∀ d : Define, d.degreeIn (m := Id) Degree.constantValue = d.degree ∧
      (d.degreeIn Degree.record).run [] = (d.degree, d.asked) ∧
      ∀ e ∈ d.asked, ¬e.HasCall ∧ (e.compile.run {} none).events = [] ∧
        ∀ error, (e.compile.run {} none).result = .error error →
          error = .divisionByZero ∨ ∃ name, error = .unknownVariable name := by
  refine ⟨fun degrees e h => Degree.isNaN_ofExpr e h, fun d => ?_⟩
  obtain ⟨hrecord, hasked⟩ := d.run_degreeIn_record
  refine ⟨d.degreeIn_id, hrecord, fun e he => ?_⟩
  have hquiet : (e.compile.run {} none).Quiet := by
    rw [e.run_compile (e.counted_of_not_hasCall (hasked e he))]
    exact e.eval_quiet (hasked e he)
  exact ⟨hasked e he, hquiet.events, hquiet.errors⟩

/-- `f(x) = { c = 3; x^c + x^(1 / 0) }`: neither exponent has a value on its own. -/
def constantExponents : Define :=
  let x := Expr.var unnumbered "x"
  let literal := fun value => Expr.number unnumbered value none
  let binary := Expr.binary unnumbered
  { id := unnumbered
    name := "f"
    params := { id := unnumbered, params := [{ id := unnumbered, name := "x" }] }
    body :=
      { id := unnumbered
        stmts :=
          [ .assign unnumbered "c" (literal 3),
            .expr (binary .add (binary .exponentiate x (.var unnumbered "c"))
              (binary .exponentiate x (binary .divide (literal 1) (literal 0)))) ] } }

theorem Define.degree_calls_nothing_constantExponents :
    constantExponents.asked =
        [.var unnumbered "c",
          .binary unnumbered .divide (.number unnumbered 1 none) (.number unnumbered 0 none)] ∧
      (∀ e ∈ constantExponents.asked, ¬e.HasCall ∧ (e.compile.run {} none).events = []) ∧
      (Degree.ofExpr {} (.negate unnumbered (.call unnumbered "print" []))).isNaN = true := by
  obtain ⟨hindeterminate, hdegree⟩ := Define.degree_calls_nothing
  obtain ⟨-, -, hasked⟩ := hdegree constantExponents
  exact ⟨rfl, fun e he => ⟨(hasked e he).1, (hasked e he).2.1⟩, hindeterminate {} _ (.inl trivial)⟩

end Abacus
