import Abacus.Machine.Call
import Abacus.Proofs.Trace
import Abacus.Syntax.Basic

/-!
# What a program means

The direct meaning of a tree, without code, stack or machine: an expression comes to a number, a
block to the value of its last statement that is no definition. It is said clause by clause along
the tree.

* an operator evaluates its right operand, then its left one, and is the built-in function of the
  same effect; arguments are evaluated last to first;
* a call takes the built-in function of its name if there is one, else the function of the scope; it
  fails for an unknown function, a wrong number of arguments or too deep a nesting, in this order;
* a function sees its parameters, of two of one name the last, and no function at all.

A body sees nothing of the scope it is defined in, so a function can be kept as its parameters and
the meaning of its body, and no recursion beyond that on the tree is needed.
-/
namespace Abacus

/-- A function: its parameters, and what a body comes to `depth` calls deep with these variables. -/
structure Func where
  params : List String
  body : (depth : Nat) → Locals → Traced RuntimeError Float

/-- The variables and functions that a statement sees. -/
structure Env where
  locals : Locals
  functions : Table String Func

namespace Env

def ofLocals (locals : Locals) : Env :=
  { locals, functions := {} }

def assign (s : Env) (name : String) (value : Float) : Env :=
  { s with locals := s.locals.insert name value }

def define (s : Env) (name : String) (f : Func) : Env :=
  { s with functions := s.functions.insert name f }

end Env

/-- Calls a function from `depth` calls deep, where calls may nest `limit` deep. -/
def Func.apply (limit : Option Nat) (depth : Nat) (f : Func) (name : String) (args : List Float) :
    Traced RuntimeError Float :=
  if f.params.length ≠ args.length then
    Traced.fail (.arity name f.params.length args.length)
  else
    match limit.filter (· ≤ depth) with
    | some n => Traced.fail (.callDepthExceeded n)
    | none => do
      Traced.emit (.call name (depth + 1))
      f.body (depth + 1) (.ofList (f.params.zip args))

/-- Calls what a name means in a scope. -/
def Env.apply (limit : Option Nat) (depth : Nat) (s : Env) (name : String)
    (args : List Float) : Traced RuntimeError Float :=
  match Builtin.ofName? name, s.functions.get? name with
  | some b, _ => b.call args
  | none, some f => f.apply limit depth name args
  | none, none => Traced.fail (.unknownFunction name)

section
variable (limit : Option Nat) (depth : Nat) (s : Env)

mutual

def Expr.eval : Expr → Traced RuntimeError Float
  | .number _ value _ => pure value
  | .var _ name =>
    match s.locals.get? name with
    | some value => pure value
    | none => Traced.fail (.unknownVariable name)
  | .binary _ op left right => do
    let y ← right.eval
    let x ← left.eval
    (Builtin.ofOperator op).call [x, y]
  | .negate _ operand => do
    let x ← operand.eval
    pure (-x)
  | .call _ name args => do
    let values ← Expr.evalAll args
    s.apply limit depth name values

/-- The values of arguments, of which the last one is evaluated first. -/
def Expr.evalAll : List Expr → Traced RuntimeError (List Float)
  | [] => pure []
  | e :: rest => do
    let values ← Expr.evalAll rest
    let value ← e.eval
    pure (value :: values)

end
end

mutual

/-- What a statement leaves behind: the scope for the statements after it and the value so far,
which is `last` before it. -/
def Stmt.eval (limit : Option Nat) (depth : Nat) (s : Env) (last : Float) :
    Stmt → Traced RuntimeError (Env × Float)
  | .define _ name params _ body => do
    Traced.emit (.define name params.names.length)
    let f := { params := params.names
               body := fun depth locals => Stmt.evalAll limit depth (.ofLocals locals) (0 / 0) body }
    pure (s.define name f, last)
  | .assign _ name e => do
    let value ← e.eval limit depth s
    pure (s.assign name value, value)
  | .expr e => do
    let value ← e.eval limit depth s
    pure (s, value)

/-- The value of a block: that of the last statement that is no definition, `last` if there is
none. -/
def Stmt.evalAll (limit : Option Nat) (depth : Nat) (s : Env) (last : Float) :
    List Stmt → Traced RuntimeError Float
  | [] => pure last
  | stmt :: rest => do
    let (s, last) ← stmt.eval limit depth s last
    Stmt.evalAll limit depth s last rest

end

/-- The value of a program that starts with these variables. Calls may nest `limit` deep, without
a limit if there is none. -/
def Program.eval (p : Program) (locals : Locals) (limit : Option Nat) : Traced RuntimeError Float :=
  Stmt.evalAll limit 0 (.ofLocals locals) (0 / 0) p.stmts

/-! ## No meaning is malformed

Malformed code is an error of the machine alone: no clause of the meaning raises it. -/

/-- A result that is no complaint about malformed code. -/
def Traced.Proper {α : Type} (x : Traced RuntimeError α) : Prop :=
  ∀ detail, x.result ≠ .error (.malformed detail)

namespace Traced.Proper

variable {α β : Type}

theorem pure (a : α) : (Pure.pure a : Traced RuntimeError α).Proper := by
  intro detail h; cases h

theorem fail {e : RuntimeError} (h : ∀ detail, e ≠ .malformed detail) :
    (Traced.fail e : Traced RuntimeError α).Proper := by
  intro detail he
  rw [result_fail, Except.error.injEq] at he
  exact h detail he

theorem emit (event : Event) : (Traced.emit event : Traced RuntimeError Unit).Proper := by
  intro detail h; cases h

theorem bind {x : Traced RuntimeError α} {f : α → Traced RuntimeError β} (hx : x.Proper)
    (hf : ∀ a, (f a).Proper) : (x >>= f).Proper := by
  intro detail h
  rcases result_bind_error h with h | ⟨a, -, h⟩
  · exact hx detail h
  · exact hf a detail h

end Traced.Proper

/-- Every function of an environment has a proper body. -/
def Env.Proper (s : Env) : Prop :=
  ∀ name f, s.functions.get? name = some f → ∀ depth locals, (f.body depth locals).Proper

theorem Env.Proper.define {s : Env} (h : s.Proper) (name : String) {f : Func}
    (hf : ∀ depth locals, (f.body depth locals).Proper) : (s.define name f).Proper :=
  Table.of_get?_insert h hf

theorem Builtin.call_proper (b : Builtin) (args : List Float) : (b.call args).Proper := by
  unfold Builtin.call
  split
  case h_4 => split <;> first | exact .fail (by simp) | exact .pure _
  case h_11 => exact .bind (.emit _) fun _ => .pure _
  case h_12 => exact .fail (by simp)
  all_goals exact .pure _

theorem Env.apply_proper {s : Env} (h : s.Proper) (limit : Option Nat) (depth : Nat) (name : String)
    (args : List Float) : (s.apply limit depth name args).Proper := by
  unfold Env.apply
  split
  · exact Builtin.call_proper _ _
  · rename_i f _ hf
    unfold Func.apply
    split
    · exact .fail (by simp)
    · split
      · exact .fail (by simp)
      · exact .bind (.emit _) fun _ => h name f hf _ _
  · exact .fail (by simp)

section
variable {limit : Option Nat} {depth : Nat} {s : Env}

mutual

theorem Expr.eval_proper (h : s.Proper) : ∀ e : Expr, (e.eval limit depth s).Proper
  | .number _ value _ => .pure value
  | .var _ name => by
    unfold Expr.eval
    split
    · exact .pure _
    · exact .fail (by simp)
  | .binary _ op left right =>
    .bind (Expr.eval_proper h right) fun _ => .bind (Expr.eval_proper h left) fun _ =>
      Builtin.call_proper _ _
  | .negate _ operand => .bind (Expr.eval_proper h operand) fun _ => .pure _
  | .call _ name args =>
    .bind (Expr.evalAll_proper h args) fun values => Env.apply_proper h limit depth name values

theorem Expr.evalAll_proper (h : s.Proper) :
    ∀ args : List Expr, (Expr.evalAll limit depth s args).Proper
  | [] => .pure _
  | e :: rest =>
    .bind (Expr.evalAll_proper h rest) fun _ => .bind (Expr.eval_proper h e) fun _ => .pure _

end
end

theorem Env.ofLocals_proper (locals : Locals) : (Env.ofLocals locals).Proper := by
  intro name f hf; cases hf

mutual

theorem Stmt.eval_proper {limit : Option Nat} {depth : Nat} {s : Env} (h : s.Proper) (last : Float) :
    ∀ stmt : Stmt, (stmt.eval limit depth s last).Proper ∧
      ∀ s' last', (stmt.eval limit depth s last).result = .ok (s', last') → s'.Proper
  | .define _ name params _ body => by
    refine ⟨.bind (.emit _) fun _ => .pure _, fun s' last' hs => ?_⟩
    obtain ⟨_, -, hs⟩ := Traced.result_bind_ok hs
    cases hs
    exact h.define name fun depth' locals =>
      Stmt.evalAll_proper (Env.ofLocals_proper locals) (0 / 0) body
  | .assign _ name e => by
    refine ⟨.bind (Expr.eval_proper h e) fun _ => .pure _, fun s' last' hs => ?_⟩
    obtain ⟨_, -, hs⟩ := Traced.result_bind_ok hs
    cases hs
    exact h
  | .expr e => by
    refine ⟨.bind (Expr.eval_proper h e) fun _ => .pure _, fun s' last' hs => ?_⟩
    obtain ⟨_, -, hs⟩ := Traced.result_bind_ok hs
    cases hs
    exact h

theorem Stmt.evalAll_proper {limit : Option Nat} {depth : Nat} {s : Env} (h : s.Proper)
    (last : Float) : ∀ stmts : List Stmt, (Stmt.evalAll limit depth s last stmts).Proper
  | [] => .pure last
  | stmt :: rest => by
    obtain ⟨hproper, hnext⟩ := Stmt.eval_proper h last stmt
    intro detail he
    rcases Traced.result_bind_error he with he | ⟨⟨s', last'⟩, hs, he⟩
    · exact hproper detail he
    · exact Stmt.evalAll_proper (hnext s' last' hs) last' rest detail he

end

end Abacus
