import Abacus.Flow.Inference
import Abacus.Proofs.Compiled
import Abacus.Proofs.Simulation

/-!
# Operators are calls of built-in functions

`Program.desugar` writes the operators and signs of a program as calls of the built-in functions that
do their work. The program is the same to the machine and to the flow graph (`Program.desugar_correct`).

The code of an operation and the code of the call that stands for it come from different clauses, and
the machine carries them out by different clauses: `Code.Desugars` says that two pieces of code differ
by that. Both take the same numbers off the stack, so related code runs alike
(`Code.Desugars.carries`). What it says of code that is malformed may differ: the one complains about
an operation, the other one about a call. Code of a program whose lists can be counted is never
malformed, and is the same to the last detail.

The walk for the flow graph does to a call of a built-in function what it does to an operation
(`Inference.expr_desugar`), so there the two graphs are equal.
-/
namespace Abacus

/-! ## Programs without operators -/

mutual

/-- Writes operators and signs as calls of the built-in functions that do their work. -/
def Expr.desugar : Expr → Expr
  | .number id value source => .number id value source
  | .var id x => .var id x
  | .binary id op left right =>
    .call id (Builtin.ofOperator op).name [left.desugar, right.desugar]
  | .negate id operand => .call id Builtin.negate.name [operand.desugar]
  | .call id f args => .call id f (Expr.desugarAll args)

def Expr.desugarAll : List Expr → List Expr
  | [] => []
  | e :: rest => e.desugar :: Expr.desugarAll rest

end

mutual

def Stmt.desugar : Stmt → Stmt
  | .define id f params bodyId body => .define id f params bodyId (Stmt.desugarAll body)
  | .assign id x value => .assign id x value.desugar
  | .expr e => .expr e.desugar

def Stmt.desugarAll : List Stmt → List Stmt
  | [] => []
  | s :: rest => s.desugar :: Stmt.desugarAll rest

end

def Program.desugar (p : Program) : Program :=
  { p with body := { p.body with stmts := Stmt.desugarAll p.stmts } }

/-- A built-in function is the one of its name. -/
theorem Builtin.ofName?_name (b : Builtin) : Builtin.ofName? b.name = some b := by
  cases b <;> rfl

theorem Expr.length_desugarAll (es : List Expr) : (Expr.desugarAll es).length = es.length := by
  induction es with
  | nil => rfl
  | cons e rest ih => simp only [Expr.desugarAll, List.length_cons, ih]

theorem Expr.id_desugar (e : Expr) : e.desugar.id = e.id := by
  cases e <;> rfl

/-! ## Code without operations -/

/-- Code in which some arithmetic has been replaced by calls. -/
inductive Code.Desugars : Code → Code → Prop
  | nil : Code.Desugars [] []
  | cons {a b : Code} (i : Instr) (h : Code.Desugars a b) : Code.Desugars (i :: a) (i :: b)
  | block {body body' a b : Code} (hbody : Code.Desugars body body') (h : Code.Desugars a b) :
      Code.Desugars (.block body :: a) (.block body' :: b)
  | arithmetic {a b : Code} (op : Operator) (h : Code.Desugars a b) :
      Code.Desugars (.op (.arithmetic op) :: a)
        (Instr.count 2 :: .name (Builtin.ofOperator op).name :: .op .call :: b)
  | negate {a b : Code} (h : Code.Desugars a b) :
      Code.Desugars (.op .negate :: a)
        (Instr.count 1 :: .name Builtin.negate.name :: .op .call :: b)

namespace Code.Desugars

theorem refl (code : Code) : Code.Desugars code code := by
  induction code with
  | nil => exact .nil
  | cons i rest ih => exact .cons i ih

theorem append {a b c d : Code} (h : Code.Desugars a b) (h' : Code.Desugars c d) :
    Code.Desugars (a ++ c) (b ++ d) := by
  induction h with
  | nil => exact h'
  | cons i _ ih => exact .cons i ih
  | block hbody _ _ ih => exact .block hbody ih
  | arithmetic op _ ih => exact .arithmetic op ih
  | negate _ ih => exact .negate ih

theorem nesting_eq {a b : Code} (h : Code.Desugars a b) : Code.nesting a = Code.nesting b := by
  induction h with
  | nil => rfl
  | cons i _ ih => rw [Code.nesting, Code.nesting, ih]
  | block _ _ ihbody ih => rw [Code.nesting, Code.nesting, Instr.nesting, Instr.nesting, ihbody, ih]
  | arithmetic _ _ ih | negate _ ih =>
    simp only [Code.nesting, Instr.count, Instr.nesting, ih, Nat.zero_max]

end Code.Desugars

mutual

theorem Expr.compile_desugars : ∀ e : Expr, Code.Desugars e.compile e.desugar.compile
  | .number _ _ _ => .refl _
  | .var _ _ => .refl _
  | .binary _ op left right =>
    ((Expr.compile_desugars right).append (Expr.compile_desugars left)).append
      (.arithmetic op .nil)
  | .negate _ operand => (Expr.compile_desugars operand).append (.negate .nil)
  | .call id f args => by
    simp only [Expr.desugar, Expr.compile, Expr.length_desugarAll]
    exact (Expr.compileArgs_desugars args).append (.refl _)

theorem Expr.compileArgs_desugars : ∀ es : List Expr,
    Code.Desugars (Expr.compileArgs es) (Expr.compileArgs (Expr.desugarAll es))
  | [] => .nil
  | e :: rest => (Expr.compileArgs_desugars rest).append (Expr.compile_desugars e)

end

mutual

theorem Stmt.compile_desugars : ∀ s : Stmt, Code.Desugars s.compile s.desugar.compile
  | .define _ _ _ _ body => .block (Stmt.compileAll_desugars body) (.refl _)
  | .assign _ _ value => (Expr.compile_desugars value).append (.refl _)
  | .expr e => Expr.compile_desugars e

theorem Stmt.compileAll_desugars : ∀ ss : List Stmt,
    Code.Desugars (Stmt.compileAll ss) (Stmt.compileAll (Stmt.desugarAll ss))
  | [] => .nil
  | s :: rest => (Stmt.compile_desugars s).append (Stmt.compileAll_desugars rest)

end

/-! ## Running code without operations -/

/-- The error, but not what it says about malformed code. -/
def RuntimeError.withoutDetail : RuntimeError → RuntimeError
  | .malformed _ => .malformed ""
  | e => e

theorem RuntimeError.eq_of_withoutDetail {e e' : RuntimeError} (h : ∀ detail, e' ≠ .malformed detail)
    (he : e.withoutDetail = e'.withoutDetail) : e = e' := by
  cases e' with
  | malformed detail => exact absurd rfl (h detail)
  | _ => cases e <;> simp_all [withoutDetail]

open Traced (Agree SimBy)

/-- Taking an operand off related stacks fails alike, whatever the operations are that take it. -/
theorem Stack.Lift.pop_withoutDetail {R : Code → Code → Prop} {α : Type} {operand : Operand α}
    {S : α → α → Prop} (hoperand : operand.Lifts R S) {s t : Stack} (h : Stack.Lift R s t)
    (op op' : Op) :
    Agree (Popped R S) ((s.pop operand op).mapError RuntimeError.withoutDetail)
      ((t.pop operand op').mapError RuntimeError.withoutDetail) := by
  cases h with
  | nil => exact rfl
  | @cons v w s t hv hs =>
    have hheld := hoperand hv
    simp only [Stack.pop]
    generalize operand.held? v = a, operand.held? w = b at hheld
    cases hheld with
    | some hab => exact ⟨hab, hs⟩
    | none => exact rfl

namespace State

variable {call : Caller} {b : Builtin} (hbuiltin : ∀ frame args, call frame b.name args = b.call args)
include hbuiltin

/-- A call of a built-in function takes its arguments off the stack as an operator takes its
operands. -/
theorem steps_call {n : Nat} (hn : Countable n) (t : State) :
    steps call [Instr.count n, .name b.name, .op .call] t = (do
      let (args, stack) ← .ofExcept (t.stack.popMany .number .call n)
      let value ← b.call args
      pure { t with stack := .number value :: stack }) := by
  simp only [steps, step, push, operate, pure_bind, bind_pure, Stack.pop_name, Traced.ok_bind,
    Instr.count, Stack.popCount_ofNat _ hn, hbuiltin]

end State

theorem Code.Desugars.carries : Code.Carries RuntimeError.withoutDetail Code.Desugars := by
  intro call hcall a b hab
  have hbuiltin : ∀ (b : Builtin) frame args, call frame b.name args = b.call args :=
    fun b => hcall.builtin b.ofName?_name
  induction hab with
  | nil => exact fun h => .pure h
  | cons i _ ih => exact fun h => .bind (h.step hcall .refl i) fun _ _ h => ih h
  | block hbody _ _ ih =>
    intro s t h
    simp only [State.steps, State.step, pure_bind]
    exact ih ⟨.cons (.block hbody) h.stack, h.frame⟩
  | @arithmetic a b op _ ih =>
    intro s t h
    have happend := State.steps_append call
      [Instr.count 2, .name (Builtin.ofOperator op).name, .op .call] b t
    rw [State.steps_call (hbuiltin _) (countable_of_lt (by decide))] at happend
    refine happend ▸ .bind ?_ fun _ _ h => ih h
    simp only [Stack.popMany, Traced.ofExcept_bind, Traced.ok_bind, bind_assoc]
    refine .bind (.ofAgree (h.stack.pop_withoutDetail Operand.lifts_number _ _)) ?_
    rintro ⟨x, u⟩ ⟨_, v⟩ ⟨rfl, huv⟩
    refine .bind (.ofAgree (huv.pop_withoutDetail Operand.lifts_number _ _)) ?_
    rintro ⟨y, u⟩ ⟨_, v⟩ ⟨rfl, huv⟩
    refine .bind (y := (Builtin.ofOperator op).call [x, y]) (.of_eq rfl) ?_
    rintro value _ rfl
    exact .pure ⟨.cons (.number value) huv, h.frame⟩
  | @negate a b _ ih =>
    intro s t h
    have happend := State.steps_append call
      [Instr.count 1, .name Builtin.negate.name, .op .call] b t
    rw [State.steps_call (hbuiltin _) (countable_of_lt (by decide))] at happend
    refine happend ▸ .bind ?_ fun _ _ h => ih h
    simp only [Stack.popMany, Traced.ofExcept_bind, Traced.ok_bind, bind_assoc]
    refine .bind (.ofAgree (h.stack.pop_withoutDetail Operand.lifts_number _ _)) ?_
    rintro ⟨x, u⟩ ⟨_, v⟩ ⟨rfl, huv⟩
    exact .pure ⟨.cons (.number (-x)) huv, h.frame⟩

theorem Code.Desugars.run_eq {a b : Code} (h : Code.Desugars a b) (locals : Locals)
    (limit : Option Nat) :
    (b.run locals limit).mapError RuntimeError.withoutDetail =
      (a.run locals limit).mapError RuntimeError.withoutDetail := by
  rw [Code.run, Code.run, h.nesting_eq]
  exact (Code.runIn_lift Code.Desugars.carries limit _ 0 h (.ofLocals locals)).symm

/-- A result that complains about no code is the same as one that looks like it. -/
theorem Traced.Proper.eq_of_withoutDetail {α : Type} {x y : Traced RuntimeError α} (hy : y.Proper)
    (h : x.mapError RuntimeError.withoutDetail = y.mapError RuntimeError.withoutDetail) : x = y := by
  have hevents : (x.mapError RuntimeError.withoutDetail).events =
      (y.mapError RuntimeError.withoutDetail).events := congrArg Traced.events h
  have hresult : x.result.mapError RuntimeError.withoutDetail =
      y.result.mapError RuntimeError.withoutDetail := congrArg Traced.result h
  refine Traced.ext hevents ?_
  cases hx : x.result with
  | ok a =>
    cases hy' : y.result with
    | ok b =>
      rw [hx, hy'] at hresult
      exact hresult
    | error e =>
      rw [hx, hy'] at hresult
      cases hresult
  | error e =>
    cases hy' : y.result with
    | ok b =>
      rw [hx, hy'] at hresult
      cases hresult
    | error e' =>
      rw [hx, hy'] at hresult
      have hproper : ∀ detail, e' ≠ .malformed detail :=
        fun detail heq => hy detail (hy'.trans (congrArg Except.error heq))
      exact congrArg Except.error (RuntimeError.eq_of_withoutDetail hproper (Except.error.inj hresult))

/-! ## Flow graphs without operators -/

namespace Scopes

mutual

theorem addStmt_desugar (scope : ScopeId) : ∀ (s : Scopes) (stmt : Stmt),
    addStmt scope s stmt.desugar = addStmt scope s stmt
  | _, .define _ _ _ _ body => addStmts_desugar _ _ body
  | _, .assign _ _ _ => rfl
  | s, .expr e => congrArg (s.place · scope) e.id_desugar

theorem addStmts_desugar (scope : ScopeId) : ∀ (s : Scopes) (stmts : List Stmt),
    addStmts scope s (Stmt.desugarAll stmts) = addStmts scope s stmts
  | _, [] => rfl
  | s, stmt :: rest => by
    simp only [Stmt.desugarAll, addStmts, addStmt_desugar scope s stmt, addStmts_desugar scope _ rest]

end

theorem ofProgram_desugar (p : Program) : ofProgram p.desugar = ofProgram p :=
  addStmts_desugar 0 _ p.stmts

end Scopes

namespace Inference

/-- What the name of a built-in function means, in any scope. -/
theorem function?_name (s : Inference) (scope : ScopeId) (b : Builtin) :
    s.function? scope b.name = s.builtins.get? b := by
  rw [function?, Builtin.ofName?_name]

mutual

theorem expr_desugar (scope : ScopeId) : ∀ (s : Inference) (e : Expr),
    expr scope s e.desugar = expr scope s e
  | _, .number _ _ _ => rfl
  | _, .var _ _ => rfl
  | s, .binary id op left right => by
    simp only [Expr.desugar, expr, exprs, expr_desugar scope s left, expr_desugar scope _ right,
      function?_name]
  | s, .negate id operand => by
    simp only [Expr.desugar, expr, exprs, expr_desugar scope s operand, function?_name]
  | s, .call id f args => by
    simp only [Expr.desugar, expr, exprs_desugar scope s args]

theorem exprs_desugar (scope : ScopeId) : ∀ (s : Inference) (es : List Expr),
    exprs scope s (Expr.desugarAll es) = exprs scope s es
  | _, [] => rfl
  | s, e :: rest => by
    simp only [Expr.desugarAll, exprs, expr_desugar scope s e, exprs_desugar scope _ rest]

end

mutual

theorem stmt_desugar : ∀ (s : Inference) (stmt : Stmt),
    Inference.stmt s stmt.desugar = Inference.stmt s stmt
  | s, .define id f params bodyId body => by
    simp only [Stmt.desugar, Inference.stmt, stmts_desugar _ none body]
  | s, .assign id x value => by
    simp only [Stmt.desugar, Inference.stmt, expr_desugar]
  | s, .expr e => by
    simp only [Stmt.desugar, Inference.stmt, Expr.id_desugar, expr_desugar]

theorem stmts_desugar : ∀ (s : Inference) (last : Option VertexId) (ss : List Stmt),
    stmts s last (Stmt.desugarAll ss) = stmts s last ss
  | _, _, [] => rfl
  | s, last, first :: rest => by
    simp only [Stmt.desugarAll, stmts, stmt_desugar s first, stmts_desugar _ _ rest]

end

theorem endsInDefine_desugar : ∀ ss : List Stmt,
    endsInDefine (Stmt.desugarAll ss) = endsInDefine ss
  | [] => rfl
  | [s] => by cases s <;> rfl
  | _ :: s :: rest => endsInDefine_desugar (s :: rest)

end Inference

namespace Program

theorem flowGraph_desugar (p : Program) : p.desugar.flowGraph = p.flowGraph := by
  have hends : Inference.endsInDefine p.desugar.stmts = Inference.endsInDefine p.stmts :=
    Inference.endsInDefine_desugar p.stmts
  have hstmts : ∀ s, Inference.stmts s none p.desugar.stmts = Inference.stmts s none p.stmts :=
    fun s => Inference.stmts_desugar s none p.stmts
  simp only [flowGraph, Inference.ofProgram, Scopes.ofProgram_desugar, hends, hstmts]
  rfl

/-- **Operators are calls of built-in functions.** A program and the program without operators run alike
with any variables and any limit on the depth of calls: the same events, then the same value or error,
but for what an error says about malformed code. There is no such error where the lists of arguments
and parameters can be counted. And both have the same mismatches. -/
theorem desugar_correct (p : Program) :
    (∀ locals limit, (p.desugar.compile.run locals limit).mapError RuntimeError.withoutDetail =
      (p.compile.run locals limit).mapError RuntimeError.withoutDetail) ∧
    (p.Counted → ∀ locals limit, p.desugar.compile.run locals limit = p.compile.run locals limit) ∧
    p.desugar.mismatches = p.mismatches := by
  have hrun := (Stmt.compileAll_desugars p.stmts).run_eq
  refine ⟨hrun, fun hcounted locals limit => ?_, ?_⟩
  · have hproper : (p.compile.run locals limit).Proper :=
      (p.compile_correct hcounted locals limit).2
    exact hproper.eq_of_withoutDetail (hrun locals limit)
  · rw [mismatches, flowGraph_desugar, mismatches]

/-- `f(x) = -x % 2`, then `f(3) / 0`. -/
def negatedRemainder : Program :=
  .ofStmts
    [ .define unnumbered "f" { id := unnumbered, params := [{ id := unnumbered, name := "x" }] }
        unnumbered
        [.expr (.binary unnumbered .modulo (.negate unnumbered (.var unnumbered "x"))
          (.number unnumbered 2 none))],
      .expr (.binary unnumbered .divide (.call unnumbered "f" [.number unnumbered 3 none])
        (.number unnumbered 0 none)) ]

theorem desugar_correct_negatedRemainder :
    negatedRemainder.Counted ∧
      negatedRemainder.desugar.compile.run {} none = negatedRemainder.compile.run {} none ∧
      (negatedRemainder.compile.run {} none).events = [.define "f" 1, .call "f" 1] ∧
      (negatedRemainder.compile.run {} none).result = .error .divisionByZero := by
  have hone : Countable 1 := countable_of_lt (by decide)
  have hcounted : negatedRemainder.Counted :=
    ⟨⟨hone, ⟨trivial, trivial⟩, trivial⟩, ⟨⟨hone, trivial, trivial⟩, trivial⟩, trivial⟩
  exact ⟨hcounted, (desugar_correct negatedRemainder).2.1 hcounted {} none, rfl, rfl⟩

end Program
end Abacus
