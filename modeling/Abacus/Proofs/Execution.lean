import Abacus.Proofs.Compiled
import Abacus.Proofs.Folding

/-!
# Executing a function is calling it

A function can be called from outside of a program: `Define.execute` binds the arguments to the
parameters itself and runs the body at the top. A program that defines the function and calls it goes
another way: the parameters and the arguments pass over the stack with their numbers, the closure
passes through the frame, and the body runs one call deep. Both come to the same
(`Define.execute_eq_call`).

The two runs of the body differ in their depth alone. Without a limit nothing looks at the depth but
the events of calls, which say how deep they are: the value or error is the same, and so is all that
is printed (`Code.runIn_shows`).
-/
namespace Abacus

/-! ## The depth does not show -/

open Traced (Shows)

theorem Traced.congruence_shows : Traced.Congruence fun _ => Shows :=
  ⟨Shows.refl, Shows.congr⟩

theorem Closure.call_shows {depth depth' : Nat} {enter enter' : Enter}
    (henter : ∀ body frame, Shows (enter body frame) (enter' body frame)) (c : Closure)
    (name : String) (args : List Float) :
    Shows (c.call none depth enter name args) (c.call none depth' enter' name args) := by
  have hbody := henter c.body (.ofCall c.params args)
  unfold Closure.call
  by_cases harity : c.params.length ≠ args.length
  · rw [if_pos harity, if_pos harity]
    exact .refl _
  · rw [if_neg harity, if_neg harity]
    exact ⟨hbody.result, hbody.printed⟩

/-- Without a limit a run comes to the same at every depth. -/
theorem Code.runIn_shows (n depth depth' : Nat) (code : Code) (frame : Frame) :
    Shows (runIn none n depth code frame) (runIn none n depth' code frame) :=
  Traced.congruence_shows.runIn (fun _ _ => True) id (fun _ henter => Closure.call_shows henter) n
    trivial code frame

/-! ## The call in a program -/

mutual

/-- Expressions define nothing. -/
theorem Expr.nesting_compile : ∀ e : Expr, Code.nesting e.compile = 0
  | .number _ _ _ => rfl
  | .var _ _ => rfl
  | .binary _ _ left right => by
    simp only [Expr.compile, Code.nesting_append, left.nesting_compile, right.nesting_compile]
    rfl
  | .negate _ operand => by
    simp only [Expr.compile, Code.nesting_append, operand.nesting_compile]
    rfl
  | .call _ _ args => by
    simp only [Expr.compile, Code.nesting_append, Expr.nesting_compileArgs args]
    rfl

theorem Expr.nesting_compileArgs : ∀ es : List Expr, Code.nesting (Expr.compileArgs es) = 0
  | [] => rfl
  | e :: rest => by
    simp only [Expr.compileArgs, Code.nesting_append, e.nesting_compile,
      Expr.nesting_compileArgs rest, Nat.max_self]

end

theorem Code.nesting_names (names : List String) : Code.nesting (names.map Instr.name) = 0 := by
  induction names with
  | nil => rfl
  | cons name rest ih => simp only [List.map_cons, nesting, Instr.nesting, ih, Nat.max_self]

/-- The literal of a value. -/
def Expr.ofValue (x : Float) : Expr :=
  .number unnumbered x none

namespace Define

/-- The program that defines a function and calls it with these numbers. -/
def calledWith (d : Define) (args : List Float) : Program where
  id := unnumbered
  body :=
    { id := unnumbered
      stmts := [d.stmt, .expr (.call unnumbered d.name (args.map Expr.ofValue))] }

/-- The function as a frame holds it. -/
def closure (d : Define) : Closure :=
  { params := d.params.names, body := d.body.compile }

theorem nesting_calledWith (d : Define) (args : List Float) :
    (d.calledWith args).compile.nesting = d.body.compile.nesting + 1 := by
  have hdefine : Code.nesting d.stmt.compile = d.body.compile.nesting + 1 := by
    simp only [stmt, Stmt.compile, Code.nesting, Code.nesting_append, Code.nesting_names,
      Instr.nesting, Instr.count, Nat.max_zero, Block.compile]
  simp only [Program.compile, calledWith, Block.compile, Stmt.compileAll, Stmt.compile,
    Code.nesting_append, Expr.nesting_compile, hdefine, Code.nesting, Nat.max_zero]

end Define

namespace State

variable (call : Caller)

/-- The code of literals pushes their values, the first one on top. -/
theorem steps_compileArgs_values (args : List Float) (stack : Stack) (frame : Frame) :
    steps call (Expr.compileArgs (args.map Expr.ofValue)) ⟨stack, frame⟩ =
      pure ⟨args.map Value.number ++ stack, frame⟩ := by
  induction args generalizing stack with
  | nil => rfl
  | cons x rest ih =>
    rw [List.map_cons, Expr.compileArgs, steps_append, ih, pure_bind]
    rfl

/-- A call of literals hands their values to the function. -/
theorem steps_call_values {args : List Float} (hargs : Countable args.length) (name : String)
    (stack : Stack) (frame : Frame) :
    steps call (Expr.call unnumbered name (args.map Expr.ofValue)).compile ⟨stack, frame⟩ =
      call frame name args >>= fun value => pure ⟨.number value :: stack, frame⟩ := by
  simp only [Expr.compile, steps_append, steps_compileArgs_values, pure_bind, List.length_map,
    steps, step, push, operate, Stack.pop_name, Traced.ok_bind, Instr.count,
    Stack.popCount_ofNat _ hargs, bind_pure]
  rw [Stack.popMany_append, Traced.ok_bind]

end State

namespace Define

/-- What the program comes to is what the call comes to, in a frame that holds the function alone. -/
theorem run_calledWith (d : Define) {args : List Float}
    (hparams : Countable d.params.params.length) (hargs : Countable args.length) :
    (d.calledWith args).compile.run {} none = (do
      Traced.emit (.define d.name d.params.names.length)
      Frame.call none 0 (Code.runIn none d.body.compile.nesting 1)
        ((Frame.ofLocals {}).define d.name d.closure) d.name args) := by
  have hcode : (d.calledWith args).compile =
      d.stmt.compile ++ (Expr.call unnumbered d.name (args.map Expr.ofValue)).compile := by
    simp only [Program.compile, calledWith, Block.compile, Stmt.compileAll, Stmt.compile,
      List.append_nil]
  have hdefine : ∀ call, State.steps call d.stmt.compile ⟨[], .ofLocals {}⟩ =
      Traced.emit (.define d.name d.params.names.length) >>= fun _ =>
        pure ⟨[], (Frame.ofLocals {}).define d.name d.closure⟩ :=
    fun call => State.steps_define call [] hparams
  rw [Code.run, nesting_calledWith, hcode]
  change State.steps _ _ _ >>= _ = _
  rw [State.steps_append, hdefine]
  simp only [bind_assoc, pure_bind, State.steps_call_values _ hargs]
  refine Traced.bind_congr_ok fun _ _ => ?_
  exact bind_pure _

/-- **Executing a function is calling it.** Called from outside of a program with any arguments, a
function comes to the same value or error, after printing the same values, as in the program that
defines it and calls it with these arguments. -/
theorem execute_eq_call (d : Define) (hname : Builtin.ofName? d.name = none) (args : List Float)
    (hparams : Countable d.params.params.length) (hargs : Countable args.length) :
    (d.execute args).result =
        ((d.calledWith args).compile.run {} none).result.mapError Failure.runtime ∧
      (d.execute args).printed = ((d.calledWith args).compile.run {} none).printed := by
  have hbody : Shows (d.body.compile.run (.ofList (d.params.names.zip args)) none)
      (Code.runIn none d.body.compile.nesting 1 d.body.compile (.ofCall d.params.names args)) :=
    Code.runIn_shows _ 0 1 _ _
  rw [run_calledWith d hparams hargs, Frame.call, hname]
  simp only [Frame.define, Table.get?_insert_self, closure, Closure.call, execute,
    d.params.length_names]
  by_cases harity : d.params.params.length ≠ args.length
  · rw [if_pos harity, if_pos harity]
    exact ⟨rfl, rfl⟩
  · rw [if_neg harity, if_neg harity]
    exact ⟨congrArg (Except.mapError Failure.runtime) hbody.result, hbody.printed⟩

/-- `f(x, x) = print(x) / 2`, of whose arguments the last one counts. -/
def halvedTwin : Define where
  id := unnumbered
  name := "f"
  params :=
    { id := unnumbered
      params := [{ id := unnumbered, name := "x" }, { id := unnumbered, name := "x" }] }
  body :=
    { id := unnumbered
      stmts :=
        [.expr (.binary unnumbered .divide (.call unnumbered "print" [.var unnumbered "x"])
          (.number unnumbered 2 none))] }

theorem execute_eq_call_halvedTwin :
    Builtin.ofName? halvedTwin.name = none ∧ Countable halvedTwin.params.params.length ∧
      Countable ([1, 4] : List Float).length ∧
      (halvedTwin.execute [1, 4]).result =
        ((halvedTwin.calledWith [1, 4]).compile.run {} none).result.mapError Failure.runtime ∧
      (halvedTwin.execute [1, 4]).printed =
        ((halvedTwin.calledWith [1, 4]).compile.run {} none).printed ∧
      (halvedTwin.execute [1, 4]).result = .ok 2 ∧ (halvedTwin.execute [1, 4]).printed = [4] := by
  have htwo : Countable 2 := countable_of_lt (by decide)
  have hsame := execute_eq_call halvedTwin rfl [1, 4] htwo htwo
  exact ⟨rfl, htwo, htwo, hsame.1, hsame.2, rfl, rfl⟩

end Define

end Abacus
