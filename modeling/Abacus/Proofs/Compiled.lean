import Mathlib.Data.Option.Basic
import Abacus.Code.Compile
import Abacus.Machine.Run
import Abacus.Proofs.Floats
import Abacus.Proofs.Meaning
import Abacus.Proofs.Running
import Abacus.Syntax.Node

/-!
# Compiled code does what the tree means

Running the code of a program and evaluating its tree come to the same value or error, with the same
events on the way (`run_compile`).

The machine has one stack for values, names, blocks and counts. What the simulation says of a piece
of code is therefore said for an arbitrary stack below it: the code of an expression pushes the value
of the expression (`Expr.steps_compile`), the code of a block leaves its value on top of whatever was
there (`Stmt.steps_compileAll`). Frames match environments (`Frame.Matches`): the same variables, and
each closure does what the function of its name means, at every depth and for every bound on the
nesting of blocks that its body fits in.

Counts travel as floats, which are exact below `2 ^ 53` (`countable_of_lt`). A longer list of
arguments or parameters fits no memory, but it is a list all the same, so the theorem says so:
`Program.Counted`. A program that was read has no such list unless its source is as long
(`Program.counted_of_reads`).
-/
namespace Abacus

/-! ## Programs whose lists can be counted -/

/-- A length that comes back from the float that carries it. -/
def Countable (n : Nat) : Prop :=
  Decimal.whole? (Float.ofNat n) = some n

theorem countable_of_lt {n : Nat} (h : n < 2 ^ 53) : Countable n :=
  Floats.whole_ofNat h

mutual

def Expr.Counted : Expr → Prop
  | .number _ _ _ => True
  | .var _ _ => True
  | .binary _ _ left right => left.Counted ∧ right.Counted
  | .negate _ operand => operand.Counted
  | .call _ _ args => Countable args.length ∧ Expr.CountedAll args

def Expr.CountedAll : List Expr → Prop
  | [] => True
  | e :: rest => e.Counted ∧ Expr.CountedAll rest

end

mutual

def Stmt.Counted : Stmt → Prop
  | .define _ _ params _ body => Countable params.params.length ∧ Stmt.CountedAll body
  | .assign _ _ value => value.Counted
  | .expr e => e.Counted

def Stmt.CountedAll : List Stmt → Prop
  | [] => True
  | s :: rest => s.Counted ∧ Stmt.CountedAll rest

end

/-- Every call and every definition has a countable number of arguments or parameters. -/
def Program.Counted (p : Program) : Prop :=
  Stmt.CountedAll p.stmts

/-! ## Pushing names -/

namespace State

variable (call : Caller)

theorem steps_names (names : List String) (stack : Stack) (frame : Frame) :
    steps call (names.map Instr.name) ⟨stack, frame⟩ =
      pure ⟨names.reverse.map Value.name ++ stack, frame⟩ := by
  induction names generalizing stack with
  | nil => rfl
  | cons name rest ih =>
    have hpush : State.push ⟨stack, frame⟩ (.name name) = ⟨.name name :: stack, frame⟩ := rfl
    simp only [List.map_cons, steps, step, pure_bind, hpush, ih]
    simp

end State

/-! ## Taking lists off the stack -/

namespace Stack

theorem popMany_append {α : Type} (operand : Operand α) (op : Op) (as : List α) (stack : Stack) :
    popMany operand op as.length (as.map operand.hold ++ stack) = .ok (as, stack) := by
  induction as with
  | nil => rfl
  | cons a rest ih =>
    simp only [List.length_cons, List.map_cons, List.cons_append, popMany, pop_hold, ih, bind,
      Except.bind, pure, Except.pure]

theorem popCount_ofNat (op : Op) {n : Nat} (h : Countable n) (stack : Stack) :
    popCount op (.number (Float.ofNat n) :: stack) = .ok (n, stack) := by
  simp only [popCount, pop_number, bind, Except.bind]
  rw [h]

end Stack

/-! ## Matching frames -/

section
variable {limit : Option Nat}

/-- A closure whose body does what the body of a function means. -/
structure Closure.Matches (limit : Option Nat) (nesting : Nat) (c : Closure) (f : Func) : Prop where
  params : c.params = f.params
  nesting_lt : c.body.nesting < nesting
  body : ∀ n depth locals, c.body.nesting ≤ n →
    Code.runIn limit n depth c.body (.ofLocals locals) = f.body depth locals

/-- A frame of code in which blocks nest at most `nesting` deep, and the environment it stands for. -/
structure Frame.Matches (limit : Option Nat) (nesting : Nat) (frame : Frame) (s : Env) : Prop where
  locals : frame.locals = s.locals
  functions : ∀ name, Option.Rel (Closure.Matches limit nesting) (frame.functions.get? name)
    (s.functions.get? name)

namespace Frame.Matches

variable {nesting : Nat} {frame : Frame} {s : Env}

theorem ofLocals (locals : Locals) :
    (Frame.ofLocals locals).Matches limit nesting (.ofLocals locals) :=
  ⟨rfl, fun _ => .none⟩

theorem setLocal (h : frame.Matches limit nesting s) (name : String) (value : Float) :
    (frame.setLocal name value).Matches limit nesting (s.assign name value) := by
  refine ⟨?_, h.functions⟩
  simp only [Frame.setLocal, Env.assign, h.locals]

theorem define (h : frame.Matches limit nesting s) (name : String) {c : Closure} {f : Func}
    (hc : c.Matches limit nesting f) :
    (frame.define name c).Matches limit nesting (s.define name f) :=
  ⟨h.locals, Table.rel_insert h.functions name (.some hc)⟩

end Frame.Matches

theorem atLimit_eq (limit : Option Nat) (depth : Nat) :
    atLimit limit depth = (limit.filter (· ≤ depth)).isSome := by
  cases limit with
  | none => rfl
  | some n => simp only [atLimit, Option.filter_some]; split <;> simp_all

theorem Closure.call_eq {nesting depth : Nat} {c : Closure} {f : Func}
    (h : c.Matches limit nesting f) (name : String) (args : List Float) :
    c.call limit depth (Code.entering limit nesting depth) name args =
      f.apply limit depth name args := by
  obtain ⟨hparams, hnesting, hbody⟩ := h
  obtain ⟨n, rfl⟩ : ∃ n, nesting = n + 1 := ⟨nesting - 1, by omega⟩
  unfold Closure.call Func.apply
  rw [hparams, atLimit_eq]
  by_cases hlength : f.params.length ≠ args.length
  · rw [if_pos hlength, if_pos hlength]
  · rw [if_neg hlength, if_neg hlength]
    cases hlimit : limit.filter (· ≤ depth) with
    | none =>
      simp only [Option.isSome_none, Bool.false_eq_true, if_false, Code.entering, Frame.ofCall]
      rw [hbody n (depth + 1) _ (by omega)]
    | some m =>
      have : limit = some m := (Option.filter_eq_some_iff.mp hlimit).1
      simp [this]

/-- How a run calls functions agrees with how the environment does. A call looks its function up and
changes nothing, so it needs only the frame to match. -/
def Calls (limit : Option Nat) (depth : Nat) (call : State.Caller) (frame : Frame) (s : Env) :
    Prop :=
  ∀ name args, call frame name args = s.apply limit depth name args

theorem Frame.Matches.calls {nesting : Nat} {frame : Frame} {s : Env}
    (h : frame.Matches limit nesting s) (depth : Nat) :
    Calls limit depth (Frame.call limit depth (Code.entering limit nesting depth)) frame s := by
  intro name args
  unfold Frame.call Env.apply
  cases Builtin.ofName? name with
  | some b => rfl
  | none =>
    have hrel := h.functions name
    generalize frame.functions.get? name = c, s.functions.get? name = f at hrel ⊢
    cases hrel with
    | none => rfl
    | some hcf => exact Closure.call_eq hcf name args

/-! ## Expressions -/

theorem Expr.length_of_evalAll {depth : Nat} {s : Env} (args : List Expr) {values : List Float}
    (h : (Expr.evalAll limit depth s args).result = .ok values) : values.length = args.length := by
  induction args generalizing values with
  | nil => cases h; rfl
  | cons e rest ih =>
    obtain ⟨others, hothers, h⟩ := Traced.result_bind_ok h
    obtain ⟨value, -, h⟩ := Traced.result_bind_ok h
    cases h
    rw [List.length_cons, List.length_cons, ih hothers]

section
variable {depth : Nat} {call : State.Caller} {frame : Frame} {s : Env}

mutual

/-- The code of an expression pushes its value. -/
theorem Expr.steps_compile (hcall : Calls limit depth call frame s)
    (hlocals : frame.locals = s.locals) :
    ∀ (e : Expr) (stack : Stack), e.Counted →
      State.steps call e.compile ⟨stack, frame⟩ =
        e.eval limit depth s >>= fun value => pure ⟨.number value :: stack, frame⟩
  | .number _ _ _, _, _ => rfl
  | .var _ name, stack, _ => by
    simp only [Expr.compile, State.steps, State.step, State.push, State.operate, pure_bind,
      Stack.pop_name, Traced.ok_bind, hlocals, Expr.eval]
    cases s.locals.get? name <;> rfl
  | .binary _ op left right, stack, h => by
    have hright := Expr.steps_compile hcall hlocals right stack h.2
    have hleft := fun y => Expr.steps_compile hcall hlocals left (.number y :: stack) h.1
    simp only [Expr.compile, Expr.eval, State.steps_append, hright, hleft, bind_assoc, pure_bind,
      State.steps_singleton, State.step, State.operate, Stack.pop_number, Traced.ok_bind]
  | .negate _ operand, stack, h => by
    have hoperand := Expr.steps_compile hcall hlocals operand stack h
    simp only [Expr.compile, Expr.eval, State.steps_append, hoperand, bind_assoc, pure_bind,
      State.steps_singleton, State.step, State.operate, Stack.pop_number, Traced.ok_bind]
  | .call _ name args, stack, h => by
    simp only [Expr.compile, Expr.eval, State.steps_append, bind_assoc,
      Expr.steps_compileArgs hcall hlocals args stack h.2, pure_bind]
    refine Traced.bind_congr_ok fun values hvalues => ?_
    have hlength := Expr.length_of_evalAll args hvalues
    simp only [State.steps, State.step, State.push, State.operate, pure_bind, bind_pure,
      Stack.pop_name, Traced.ok_bind, Instr.count, Stack.popCount_ofNat _ h.1]
    rw [← hlength, Stack.popMany_append]
    simp only [Traced.ok_bind, hcall name values]

/-- The code of arguments pushes their values, the first one on top. -/
theorem Expr.steps_compileArgs (hcall : Calls limit depth call frame s)
    (hlocals : frame.locals = s.locals) :
    ∀ (args : List Expr) (stack : Stack), Expr.CountedAll args →
      State.steps call (Expr.compileArgs args) ⟨stack, frame⟩ =
        Expr.evalAll limit depth s args >>= fun values =>
          pure ⟨values.map Value.number ++ stack, frame⟩
  | [], _, _ => rfl
  | e :: rest, stack, h => by
    have hrest := Expr.steps_compileArgs hcall hlocals rest stack h.2
    have he := fun values =>
      Expr.steps_compile hcall hlocals e (List.map Value.number values ++ stack) h.1
    simp only [Expr.compileArgs, Expr.evalAll, State.steps_append, hrest, he, bind_assoc, pure_bind,
      List.map_cons, List.cons_append]

end
end

/-! ## Statements -/

/-- A run between two statements and what the tree has come to there. -/
structure State.Matches (limit : Option Nat) (nesting : Nat) (st : State) (s : Env × Float) :
    Prop where
  frame : st.frame.Matches limit nesting s.1
  result : st.stack.result = .ok s.2

theorem ParamList.length_names (p : ParamList) : p.names.length = p.params.length :=
  List.length_map _

/-- The code of a definition stores a closure and leaves the stack as it was. -/
theorem State.steps_define (call : State.Caller) {frame : Frame} {body : Code} {params : ParamList}
    {name : String} (stack : Stack) (h : Countable params.params.length) :
    State.steps call (.block body :: (params.names.reverse.map Instr.name ++
        [Instr.count params.params.length, .name name, .op .define])) ⟨stack, frame⟩ =
      Traced.emit (.define name params.names.length) >>= fun _ =>
        pure ⟨stack, frame.define name { params := params.names, body }⟩ := by
  simp only [State.step, pure_bind, State.steps_append, State.steps_names,
    List.reverse_reverse, State.steps, State.push, State.operate, Instr.count, bind_pure,
    Stack.pop_name, Traced.ok_bind, Stack.popCount_ofNat _ h]
  rw [← params.length_names, Stack.popMany_append]
  simp only [Traced.ok_bind, Stack.pop_block]

mutual

theorem Stmt.steps_compile {n : Nat} (depth : Nat) {frame : Frame} {s : Env} :
    ∀ (stmt : Stmt) (stack : Stack) (last : Float), stmt.Counted →
      Code.nesting stmt.compile ≤ n → frame.Matches limit n s → stack.result = .ok last →
      Traced.Sim (State.Matches limit n)
        (State.steps (Frame.call limit depth (Code.entering limit n depth)) stmt.compile
          ⟨stack, frame⟩)
        (stmt.eval limit depth s last)
  | .define _ name params _ body, stack, last, hcounted, hnesting, hframe, hlast => by
    have hbody : Code.nesting (Stmt.compileAll body) < n := by
      simp only [Stmt.compile, Code.nesting, Instr.nesting] at hnesting; omega
    rw [Stmt.compile, State.steps_define _ stack hcounted.1, Stmt.eval]
    refine .bind (.emit _) fun _ _ _ => .pure ⟨hframe.define name ⟨rfl, hbody, ?_⟩, hlast⟩
    -- the body is run from an empty stack, in a frame of its own and at any depth
    intro m depth' locals hm
    rw [Code.runIn_eq]
    exact (Stmt.steps_compileAll depth' body [] _ hcounted.2 hm (.ofLocals locals) rfl).eq
  | .assign _ name e, stack, last, hcounted, _, hframe, _ => by
    have he := Expr.steps_compile (hframe.calls depth) hframe.locals e stack hcounted
    simp only [Stmt.compile, State.steps_append, he, bind_assoc, pure_bind, Stmt.eval]
    refine .bind (.refl _) fun value _ heq => ?_
    subst heq
    exact .pure ⟨hframe.setLocal name value, rfl⟩
  | .expr e, stack, last, hcounted, _, hframe, _ => by
    have he := Expr.steps_compile (hframe.calls depth) hframe.locals e stack hcounted
    rw [Stmt.compile, he, Stmt.eval]
    refine .bind (.refl _) fun value _ heq => ?_
    subst heq
    exact .pure ⟨hframe, rfl⟩

/-- The code of a block leaves the value of the block on the stack. -/
theorem Stmt.steps_compileAll {n : Nat} (depth : Nat) {frame : Frame} {s : Env} :
    ∀ (stmts : List Stmt) (stack : Stack) (last : Float), Stmt.CountedAll stmts →
      Code.nesting (Stmt.compileAll stmts) ≤ n → frame.Matches limit n s → stack.result = .ok last →
      Traced.Sim Eq
        (State.steps (Frame.call limit depth (Code.entering limit n depth)) (Stmt.compileAll stmts)
          ⟨stack, frame⟩ >>= fun st => .ofExcept st.stack.result)
        (Stmt.evalAll limit depth s last stmts)
  | [], stack, last, _, _, _, hlast => by
    simp only [Stmt.compileAll, State.steps, pure_bind, hlast, Stmt.evalAll]
    exact .pure rfl
  | stmt :: rest, stack, last, hcounted, hnesting, hframe, hlast => by
    rw [Stmt.compileAll, Code.nesting_append] at hnesting
    have hstmt := Stmt.steps_compile depth stmt stack last hcounted.1 (by omega) hframe hlast
    rw [Stmt.compileAll, State.steps_append, bind_assoc, Stmt.evalAll]
    refine .bind hstmt fun st s' hst => ?_
    exact Stmt.steps_compileAll depth rest st.stack s'.2 hcounted.2 (by omega) hst.frame hst.result

end

theorem Program.run_compile (p : Program) (hp : p.Counted) (locals : Locals) (limit : Option Nat) :
    p.compile.run locals limit = p.eval locals limit := by
  rw [Code.run, Code.runIn_eq]
  exact (Stmt.steps_compileAll 0 p.stmts [] _ hp (Nat.le_refl _) (.ofLocals locals) rfl).eq

end

/-- **Compiled code does what the tree means**: the same value or error after the same events. In
particular it is never malformed. -/
theorem Program.compile_correct (p : Program) (hp : p.Counted) (locals : Locals)
    (limit : Option Nat) :
    p.compile.run locals limit = p.eval locals limit ∧
      ∀ detail, (p.compile.run locals limit).result ≠ .error (.malformed detail) := by
  have hrun := p.run_compile hp locals limit
  refine ⟨hrun, ?_⟩
  rw [hrun]
  exact Stmt.evalAll_proper (Env.ofLocals_proper locals) (0 / 0) p.stmts

/-- `f(x) = print(x) / 0`, then `f(2)`. -/
def Program.printedQuotient : Program :=
  .ofStmts
    [ .define unnumbered "f" { id := unnumbered, params := [{ id := unnumbered, name := "x" }] }
        unnumbered
        [.expr (.binary unnumbered .divide (.call unnumbered "print" [.var unnumbered "x"])
          (.number unnumbered 0 none))],
      .expr (.call unnumbered "f" [.number unnumbered 2 none]) ]

theorem Program.compile_correct_printedQuotient :
    printedQuotient.Counted ∧
      printedQuotient.compile.run {} none = printedQuotient.eval {} none ∧
      (printedQuotient.eval {} none).events = [.define "f" 1, .call "f" 1, .print 2] ∧
      (printedQuotient.eval {} none).result = .error .divisionByZero := by
  have hone : Countable 1 := countable_of_lt (by decide)
  have hcounted : printedQuotient.Counted :=
    ⟨⟨hone, ⟨⟨hone, trivial, trivial⟩, trivial⟩, trivial⟩, ⟨hone, trivial, trivial⟩, trivial⟩
  exact ⟨hcounted, (printedQuotient.compile_correct hcounted {} none).1, rfl, rfl⟩

end Abacus
