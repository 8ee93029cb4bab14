import Abacus.Proofs.Floats
import Abacus.Proofs.Simulation
import Abacus.Session

/-!
# Folding does not show

A program and its folded form run alike: the same value or error, with the same events on the way.

Folding happens in the tree, but what it leaves is best seen in the code: `Code.Reduces a b` says
that `b` is `a` with pieces that push a number replaced by that number. Code of a tree reduces to
code of the folded tree (`Stmt.compileAll_reduces`), and reduced code runs as the code does
(`Code.Reduces.run_eq`). The second part knows nothing of trees, so functions on both sides may
hold blocks that differ.

That the pieces do push the number needs one fact about floats: a quotient by zero is never finite,
so the division that the machine would refuse is never folded (`Floats.isFinite_div_zero`).
-/
namespace Abacus

/-! ## Reduced code -/

/-- Code that does nothing but push a number. -/
structure Code.Pushes (code : Code) (value : Float) : Prop where
  nesting : Code.nesting code = 0
  steps : ∀ (call : State.Caller) (s : State),
    State.steps call code s = pure (s.push (.number value))

/-- Code in which some pieces that push a number have been replaced by the number. -/
inductive Code.Reduces : Code → Code → Prop
  | nil : Code.Reduces [] []
  | cons {a b : Code} (i : Instr) (h : Code.Reduces a b) : Code.Reduces (i :: a) (i :: b)
  | block {body body' a b : Code} (hbody : Code.Reduces body body') (h : Code.Reduces a b) :
      Code.Reduces (.block body :: a) (.block body' :: b)
  | number {code a b : Code} {value : Float} (hcode : code.Pushes value) (h : Code.Reduces a b) :
      Code.Reduces (code ++ a) (.number value :: b)

namespace Code.Reduces

theorem refl (code : Code) : Code.Reduces code code := by
  induction code with
  | nil => exact .nil
  | cons i rest ih => exact .cons i ih

theorem append {a b c d : Code} (h : Code.Reduces a b) (h' : Code.Reduces c d) :
    Code.Reduces (a ++ c) (b ++ d) := by
  induction h with
  | nil => exact h'
  | cons i _ ih => exact .cons i ih
  | block hbody _ _ ih => exact .block hbody ih
  | number hcode _ ih =>
    rw [List.append_assoc]
    exact .number hcode ih

theorem nesting_eq {a b : Code} (h : Code.Reduces a b) : Code.nesting a = Code.nesting b := by
  induction h with
  | nil => rfl
  | cons i _ ih => rw [Code.nesting, Code.nesting, ih]
  | block _ _ ihbody ih => rw [Code.nesting, Code.nesting, Instr.nesting, Instr.nesting, ihbody, ih]
  | number hcode _ ih =>
    rw [Code.nesting_append, hcode.nesting, ih, Code.nesting, Instr.nesting]

theorem pushes {code : Code} {value : Float} (h : Code.Reduces code [.number value]) :
    code.Pushes value := by
  cases h with
  | cons i h =>
    cases h
    exact ⟨rfl, fun _ _ => rfl⟩
  | number hcode h =>
    cases h
    rwa [List.append_nil]

end Code.Reduces

/-! ## Running reduced code -/

theorem Code.Reduces.carries : Code.Carries id Code.Reduces := by
  intro call hcall a b hab
  induction hab with
  | nil => exact fun h => .pure h
  | cons i _ ih => exact fun h => .bind (h.step hcall .refl i) fun _ _ h => ih h
  | block hbody _ _ ih =>
    intro s t h
    simp only [State.steps, State.step, pure_bind]
    exact ih ⟨.cons (.block hbody) h.stack, h.frame⟩
  | @number code a b value hcode _ ih =>
    intro s t h
    simp only [State.steps_append, hcode.steps, State.steps, State.step, pure_bind]
    exact ih ⟨.cons (.number value) h.stack, h.frame⟩

/-- Reduced code runs as the code does. -/
theorem Code.Reduces.run_eq {a b : Code} (h : Code.Reduces a b) (locals : Locals)
    (limit : Option Nat) : b.run locals limit = a.run locals limit := by
  have hrun := Code.runIn_lift Code.Reduces.carries limit b.nesting 0 h (.ofLocals locals)
  rw [Traced.mapError_id, Traced.mapError_id] at hrun
  rw [Code.run, Code.run, h.nesting_eq]
  exact hrun.symm

/-! ## What folds pushes its value -/

theorem Builtin.call_ofOperator (op : Operator) {x y : Float}
    (h : (op.apply x y).isFinite = true) :
    (Builtin.ofOperator op).call [x, y] = pure (op.apply x y) := by
  cases op with
  | divide =>
    by_cases hzero : (y == 0) = true
    · have hinfinite := Floats.isFinite_div_zero x hzero
      rw [Operator.apply, hinfinite] at h
      cases h
    · simp only [Builtin.ofOperator, Builtin.call, if_neg hzero]
  | _ => rfl

namespace Code.Pushes

theorem binary {a b : Code} {x y : Float} (op : Operator) (hx : a.Pushes x) (hy : b.Pushes y)
    (h : (op.apply x y).isFinite = true) :
    Code.Pushes (b ++ a ++ [.op (.arithmetic op)]) (op.apply x y) := by
  constructor
  · rw [Code.nesting_append, Code.nesting_append, hx.nesting, hy.nesting]
    rfl
  · intro call s
    have hcall := Builtin.call_ofOperator op h
    simp only [State.steps_append, hx.steps, hy.steps, pure_bind, State.steps_singleton, State.step,
      State.push, State.operate, Stack.pop_number, Traced.ok_bind, hcall]

theorem negate {a : Code} {x : Float} (hx : a.Pushes x) :
    Code.Pushes (a ++ [.op .negate]) (-x) := by
  constructor
  · rw [Code.nesting_append, hx.nesting]
    rfl
  · intro call s
    simp only [State.steps_append, hx.steps, pure_bind, State.steps_singleton, State.step,
      State.push, State.operate, Stack.pop_number, Traced.ok_bind]

end Code.Pushes

/-! ## Folding reduces code -/

theorem Expr.compile_of_value {e : Expr} {v : Float} (h : e.value? = some v) :
    e.compile = [.number v] := by
  cases e <;> cases h
  rfl

theorem Code.Reduces.literalOr {code : Code} {value : Option Float} {kept : Expr} (next : NodeId)
    (hkept : Code.Reduces code kept.compile)
    (hvalue : ∀ v, value = some v → v.isFinite = true → code.Pushes v) :
    Code.Reduces code (literalOr next value kept).1.compile := by
  unfold Abacus.literalOr
  cases value with
  | none => exact hkept
  | some v =>
    by_cases hfinite : v.isFinite = true
    · have hcode : Code.Reduces (code ++ []) [.number v] := .number (hvalue v rfl hfinite) .nil
      rw [List.append_nil] at hcode
      simp only [hfinite, if_true]
      exact hcode
    · simp only [hfinite]
      exact hkept

theorem Expr.length_foldAllFrom (next : NodeId) (args : List Expr) :
    (Expr.foldAllFrom next args).1.length = args.length := by
  induction args generalizing next with
  | nil => rfl
  | cons e rest ih => simp only [Expr.foldAllFrom, List.length_cons, ih]

mutual

theorem Expr.compile_reduces : ∀ (next : NodeId) (e : Expr),
    Code.Reduces e.compile (e.foldFrom next).1.compile
  | _, .number _ _ _ => .refl _
  | _, .var _ _ => .refl _
  | next, .binary id op left right => by
    have hleft := Expr.compile_reduces next left
    have hright := Expr.compile_reduces (left.foldFrom next).2 right
    unfold Expr.foldFrom
    refine .literalOr _ ((hright.append hleft).append (.refl _)) fun v hv hfinite => ?_
    unfold Operator.fold? at hv
    split at hv <;> cases hv
    next x y hx hy =>
      rw [Expr.compile_of_value hx] at hleft
      rw [Expr.compile_of_value hy] at hright
      exact hleft.pushes.binary op hright.pushes hfinite
  | next, .negate id operand => by
    have hoperand := Expr.compile_reduces next operand
    unfold Expr.foldFrom
    refine .literalOr _ (hoperand.append (.refl _)) fun v hv _ => ?_
    obtain ⟨x, hx, rfl⟩ := Option.map_eq_some_iff.mp hv
    rw [Expr.compile_of_value hx] at hoperand
    exact hoperand.pushes.negate
  | next, .call id name args => by
    have hargs := Expr.compileArgs_reduces next args
    simp only [Expr.foldFrom, Expr.compile, Expr.length_foldAllFrom]
    exact hargs.append (.refl _)

theorem Expr.compileArgs_reduces : ∀ (next : NodeId) (args : List Expr),
    Code.Reduces (Expr.compileArgs args) (Expr.compileArgs (Expr.foldAllFrom next args).1)
  | _, [] => .nil
  | next, e :: rest => by
    have he := Expr.compile_reduces next e
    have hrest := Expr.compileArgs_reduces (e.foldFrom next).2 rest
    exact hrest.append he

end

mutual

theorem Stmt.compile_reduces : ∀ (next : NodeId) (s : Stmt),
    Code.Reduces s.compile (s.foldFrom next).1.compile
  | next, .define _ _ _ _ body => .block (Stmt.compileAll_reduces next body) (.refl _)
  | next, .assign _ _ value => (Expr.compile_reduces next value).append (.refl _)
  | next, .expr e => Expr.compile_reduces next e

theorem Stmt.compileAll_reduces : ∀ (next : NodeId) (stmts : List Stmt),
    Code.Reduces (Stmt.compileAll stmts) (Stmt.compileAll (Stmt.foldAllFrom next stmts).1)
  | _, [] => .nil
  | next, s :: rest =>
    (Stmt.compile_reduces next s).append (Stmt.compileAll_reduces (s.foldFrom next).2 rest)

end

theorem Program.run_foldFrom (next : NodeId) (p : Program) (locals : Locals) (limit : Option Nat) :
    (p.foldFrom next).1.compile.run locals limit = p.compile.run locals limit :=
  (Stmt.compileAll_reduces next p.stmts).run_eq locals limit

/-! ## Folding on the way to an answer

With folding a source goes through one more stage, and its code is shorter. Both are reported, so
the events of the two answers differ; the printed values do not. -/

namespace Traced

variable {ε α β : Type}

/-- The same result after the same printed values. -/
structure Shows (x y : Traced ε α) : Prop where
  result : x.result = y.result
  printed : x.printed = y.printed

theorem Shows.bind {x : Traced ε α} {f g : α → Traced ε β} (h : ∀ a, Shows (f a) (g a)) :
    Shows (x >>= f) (x >>= g) := by
  obtain ⟨events, result⟩ := x
  cases result with
  | error e => exact ⟨rfl, rfl⟩
  | ok a =>
    obtain ⟨hresult, hprinted⟩ := h a
    refine ⟨hresult, ?_⟩
    simp only [Traced.printed, bind_eq, List.filterMap_append] at hprinted ⊢
    rw [hprinted]

theorem Shows.trans {x y z : Traced ε α} (hxy : Shows x y) (hyz : Shows y z) : Shows x z :=
  ⟨hxy.result.trans hyz.result, hxy.printed.trans hyz.printed⟩

theorem Shows.refl (x : Traced ε α) : Shows x x :=
  ⟨rfl, rfl⟩

theorem Shows.congr {x y : Traced ε α} {f g : α → Traced ε β} (h : Shows x y)
    (hfg : ∀ a, Shows (f a) (g a)) : Shows (x >>= f) (y >>= g) := by
  have hxy : Shows (x >>= f) (y >>= f) := by
    obtain ⟨events, result⟩ := x
    obtain ⟨events', result'⟩ := y
    obtain ⟨rfl, hprinted⟩ := h
    cases result with
    | error e => exact ⟨rfl, hprinted⟩
    | ok a =>
      refine ⟨rfl, ?_⟩
      simp only [Traced.printed, bind_eq, List.filterMap_append] at hprinted ⊢
      rw [hprinted]
  exact hxy.trans (.bind hfg)

/-- A stage that prints nothing does not show. -/
theorem Shows.of_silent {x : Traced ε α} {a : α} (hresult : x.result = .ok a)
    (hprinted : x.printed = []) (f : α → Traced ε β) : Shows (x >>= f) (f a) := by
  rw [bind_eq, hresult]
  refine ⟨rfl, ?_⟩
  have happend : (x.events ++ (f a).events).filterMap Event.printed? =
      x.printed ++ (f a).printed := List.filterMap_append
  rw [hprinted] at happend
  exact happend

end Traced

theorem Program.evaluate_eq (p : Program) (limit : Option Nat) :
    p.evaluate limit = (do
      Traced.emit (.compiled p.compile.length)
      (p.compile.run {} limit).mapError Failure.runtime) := by
  simp only [Program.evaluate, compileProgram, bind_assoc, pure_bind]

theorem Program.evaluate_fold (p : Program) (limit : Option Nat) :
    (foldProgram p >>= fun p => p.evaluate limit).Shows (p.evaluate limit) := by
  have hrun := p.run_foldFrom (freshId p.nodeIds) {} limit
  simp only [foldProgram, Program.fold, Program.evaluate_eq, hrun, bind_assoc, pure_bind]
  exact ⟨rfl, rfl⟩

/-- **Folding does not show**: a folded program comes to the same value or error with the same
events, and so a source gives the same answer after the same printed values. -/
theorem fold_correct :
    (∀ (p : Program) (locals : Locals) (limit : Option Nat),
      p.fold.compile.run locals limit = p.compile.run locals limit) ∧
    ∀ (source : String) (limit : Option Nat),
      (evaluate source { fold := true, maxCallDepth := limit }).result =
          (evaluate source { fold := false, maxCallDepth := limit }).result ∧
        (evaluate source { fold := true, maxCallDepth := limit }).printed =
          (evaluate source { fold := false, maxCallDepth := limit }).printed := by
  refine ⟨fun p => p.run_foldFrom _, fun source limit => ?_⟩
  have hshows : Traced.Shows (evaluate source { fold := true, maxCallDepth := limit })
      (evaluate source { fold := false, maxCallDepth := limit }) := by
    simp only [evaluate, parse, bind_assoc, if_true, if_false, Bool.false_eq_true, pure_bind]
    exact .bind fun tokens => .bind fun program => program.evaluate_fold limit
  exact ⟨hshows.result, hshows.printed⟩

end Abacus
