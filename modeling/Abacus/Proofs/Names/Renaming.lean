import Mathlib.Logic.Equiv.Basic
import Abacus.Code.Compile
import Abacus.Machine.Run
import Abacus.Proofs.Running

/-!
# Runs under new names

A renaming gives every name another one, no two names the same, and leaves the built-in functions
alone. Code with new names runs as the code does, but for the names in its events and errors
(`Code.run_rename`).

Names are compared and stored, and nothing looks into them. So renaming goes through every part of the
machine: what is done to renamed parts is what is done to the parts, renamed. There is one such equation
for each function. They rest on one fact about tables, that a look-up under a new name finds what stood
under the old one (`Table.get?_map`); this is where two names must not become one.
-/
namespace Abacus

/-- New names for old ones. -/
structure Renaming where
  toFun : String → String
  injective : Function.Injective toFun
  builtin : ∀ b : Builtin, toFun b.name = b.name

namespace Renaming

instance : CoeFun Renaming fun _ => String → String :=
  ⟨toFun⟩

/-- A renamed function is built in if and only if it was, and then it is the same. -/
theorem ofName?_apply (ρ : Renaming) (x : String) : Builtin.ofName? (ρ x) = Builtin.ofName? x := by
  have hname : ∀ b : Builtin, b.name = ρ x ↔ b.name = x := by
    intro b
    rw [← ρ.builtin b]
    constructor
    · intro h
      rw [ρ.builtin b]
      exact ρ.injective h
    · rintro rfl
      rw [ρ.builtin b, ρ.builtin b]
  simp only [Builtin.ofName?, hname]

/-- Exchanges two names that are not built in. -/
def swap (x y : String) (hx : Builtin.ofName? x = none) (hy : Builtin.ofName? y = none) :
    Renaming where
  toFun := Equiv.swap x y
  injective := (Equiv.swap x y).injective
  builtin := by
    intro b
    have hne : ∀ z, Builtin.ofName? z = none → b.name ≠ z := by
      rintro z hz rfl
      cases b <;> cases hz
    exact Equiv.swap_apply_of_ne_of_ne (hne x hx) (hne y hy)

end Renaming

/-! ## Renamed trees -/

mutual

def Expr.rename (ρ : Renaming) : Expr → Expr
  | .number id value source => .number id value source
  | .var id x => .var id (ρ x)
  | .binary id op left right => .binary id op (left.rename ρ) (right.rename ρ)
  | .negate id operand => .negate id (operand.rename ρ)
  | .call id f args => .call id (ρ f) (Expr.renameAll ρ args)

def Expr.renameAll (ρ : Renaming) : List Expr → List Expr
  | [] => []
  | e :: rest => e.rename ρ :: Expr.renameAll ρ rest

end

def Param.rename (ρ : Renaming) (p : Param) : Param :=
  { p with name := ρ p.name }

def ParamList.rename (ρ : Renaming) (p : ParamList) : ParamList :=
  { p with params := p.params.map (Param.rename ρ) }

mutual

def Stmt.rename (ρ : Renaming) : Stmt → Stmt
  | .define id f params bodyId body =>
    .define id (ρ f) (params.rename ρ) bodyId (Stmt.renameAll ρ body)
  | .assign id x value => .assign id (ρ x) (value.rename ρ)
  | .expr e => .expr (e.rename ρ)

def Stmt.renameAll (ρ : Renaming) : List Stmt → List Stmt
  | [] => []
  | s :: rest => s.rename ρ :: Stmt.renameAll ρ rest

end

/-- The program with new names for its variables, parameters and functions, and the ids it had. -/
def Program.rename (ρ : Renaming) (p : Program) : Program :=
  { p with body := { p.body with stmts := Stmt.renameAll ρ p.stmts } }

section
variable (ρ : Renaming)

theorem Expr.length_renameAll (es : List Expr) : (Expr.renameAll ρ es).length = es.length := by
  induction es with
  | nil => rfl
  | cons e rest ih => simp only [Expr.renameAll, List.length_cons, ih]

theorem Expr.id_rename (e : Expr) : (e.rename ρ).id = e.id := by
  cases e <;> rfl

theorem ParamList.names_rename (p : ParamList) : (p.rename ρ).names = p.names.map ρ := by
  simp only [ParamList.rename, ParamList.names, List.map_map]
  rfl

end

/-! ## Renamed tables -/

namespace Table

variable {κ κ' α β : Type} [DecidableEq κ] [DecidableEq κ']

/-- The table with its keys and values changed. -/
def map (onKey : κ → κ') (onValue : α → β) (t : Table κ α) : Table κ' β :=
  { entries := t.entries.map (Prod.map onKey onValue) }

omit [DecidableEq κ] [DecidableEq κ'] in
theorem map_ofList (onKey : κ → κ') (onValue : α → β) (entries : List (κ × α)) :
    (ofList entries).map onKey onValue = ofList (entries.map (Prod.map onKey onValue)) := by
  have hfold : ∀ t : Table κ α,
      (entries.foldl (fun t entry => t.insert entry.1 entry.2) t).map onKey onValue =
        (entries.map (Prod.map onKey onValue)).foldl (fun t entry => t.insert entry.1 entry.2)
          (t.map onKey onValue) := by
    induction entries with
    | nil => exact fun _ => rfl
    | cons entry rest ih => exact fun t => ih (t.insert entry.1 entry.2)
  exact hfold empty

theorem get?_map {onKey : κ → κ'} (hinjective : Function.Injective onKey) (onValue : α → β)
    (t : Table κ α) (key : κ) :
    (t.map onKey onValue).get? (onKey key) = (t.get? key).map onValue := by
  obtain ⟨entries⟩ := t
  induction entries with
  | nil => rfl
  | cons entry rest ih =>
    simp only [get?, map, List.map_cons, List.find?_cons, Prod.map_fst, hinjective.eq_iff] at ih ⊢
    by_cases hkey : entry.1 = key
    · simp [hkey]
    · simp only [hkey, decide_false, ih]

end Table

/-! ## Renamed runs -/

section
variable (ρ : Renaming)

mutual

def Instr.rename : Instr → Instr
  | .number value => .number value
  | .name x => .name (ρ x)
  | .block code => .block (Code.rename code)
  | .op op => .op op

def Code.rename : List Instr → List Instr
  | [] => []
  | i :: rest => i.rename :: Code.rename rest

end

def Event.rename : Event → Event
  | .degree f value => .degree (ρ f) value
  | .define f params => .define (ρ f) params
  | .call f depth => .call (ρ f) depth
  | event => event

def RuntimeError.rename : RuntimeError → RuntimeError
  | .unknownFunction f => .unknownFunction (ρ f)
  | .unknownVariable x => .unknownVariable (ρ x)
  | .arity f expected found => .arity (ρ f) expected found
  | e => e

def Value.rename : Value → Value
  | .number value => .number value
  | .name x => .name (ρ x)
  | .block code => .block (Code.rename ρ code)

abbrev Stack.rename (s : Stack) : Stack :=
  s.map (Value.rename ρ)

def Closure.rename (c : Closure) : Closure :=
  { params := c.params.map ρ, body := Code.rename ρ c.body }

def Locals.rename (locals : Locals) : Locals :=
  locals.map ρ id

def Frame.rename (f : Frame) : Frame :=
  { locals := Locals.rename ρ f.locals, functions := f.functions.map ρ (Closure.rename ρ) }

def State.rename (s : State) : State :=
  { stack := Stack.rename ρ s.stack, frame := s.frame.rename ρ }

/-- A result with the names in its events and errors renamed, and its value changed. -/
def Traced.rename {α β : Type} (onValue : α → β) (x : Traced RuntimeError α) :
    Traced RuntimeError β :=
  { events := x.events.map (Event.rename ρ)
    result := (x.result.mapError (RuntimeError.rename ρ)).map onValue }

end

namespace Traced

variable {ρ : Renaming} {α β γ δ : Type}

theorem rename_emit (event : Event) :
    emit (event.rename ρ) = (emit event : Traced RuntimeError Unit).rename ρ id :=
  rfl

/-- What is done with a renamed value is what is done with the value, renamed. -/
theorem rename_bind {onValue : α → β} {onResult : γ → δ} {x : Traced RuntimeError α}
    {y : Traced RuntimeError β} {f : α → Traced RuntimeError γ} {g : β → Traced RuntimeError δ}
    (hxy : y = x.rename ρ onValue) (hfg : ∀ a, g (onValue a) = (f a).rename ρ onResult) :
    y >>= g = (x >>= f).rename ρ onResult := by
  subst hxy
  obtain ⟨events, result⟩ := x
  cases result with
  | error e => rfl
  | ok a =>
    change Traced.mk (events.map (Event.rename ρ) ++ (g (onValue a)).events) (g (onValue a)).result = _
    rw [hfg a]
    exact ext (List.map_append ..).symm rfl

end Traced

section
variable (ρ : Renaming)

/-! ### Stacks -/

theorem Value.kind_rename (v : Value) : (v.rename ρ).kind = v.kind := by
  cases v <;> rfl

namespace Operand

/-- What a renamed value holds is what the value holds, changed by `onHeld`. -/
def Renames {α : Type} (operand : Operand α) (onHeld : α → α) : Prop :=
  ∀ v : Value, operand.held? (v.rename ρ) = (operand.held? v).map onHeld

theorem renames_number : number.Renames ρ id := by
  intro v
  cases v <;> rfl

theorem renames_name : name.Renames ρ ρ := by
  intro v
  cases v <;> rfl

theorem renames_block : block.Renames ρ (Code.rename ρ) := by
  intro v
  cases v <;> rfl

end Operand

namespace Stack

/-- A value taken off a stack, and the rest of it renamed. -/
abbrev renameRest {α β : Type} (onValue : α → β) (p : α × Stack) : β × Stack :=
  (onValue p.1, rename ρ p.2)

variable {ρ}

theorem pop_rename {α : Type} {operand : Operand α} {onHeld : α → α}
    (h : operand.Renames ρ onHeld) (op : Op) (s : Stack) :
    Traced.ofExcept ((rename ρ s).pop operand op) =
      (Traced.ofExcept (s.pop operand op)).rename ρ (renameRest ρ onHeld) := by
  cases s with
  | nil => rfl
  | cons v rest =>
    simp only [rename, List.map_cons, pop, h v, mismatch, Value.kind_rename]
    cases operand.held? v <;> rfl

theorem popMany_rename {α : Type} {operand : Operand α} {onHeld : α → α}
    (h : operand.Renames ρ onHeld) (op : Op) (n : Nat) (s : Stack) :
    Traced.ofExcept ((rename ρ s).popMany operand op n) =
      (Traced.ofExcept (s.popMany operand op n)).rename ρ (renameRest ρ (List.map onHeld)) := by
  induction n generalizing s with
  | zero => rfl
  | succ n ih =>
    simp only [popMany, Traced.ofExcept_bind]
    refine Traced.rename_bind (pop_rename h op s) ?_
    rintro ⟨a, rest⟩
    refine Traced.rename_bind (ih rest) ?_
    rintro ⟨as, rest⟩
    rfl

variable (ρ)

theorem popCount_rename (op : Op) (s : Stack) :
    Traced.ofExcept ((rename ρ s).popCount op) =
      (Traced.ofExcept (s.popCount op)).rename ρ (renameRest ρ id) := by
  simp only [popCount, Traced.ofExcept_bind]
  refine Traced.rename_bind (pop_rename (Operand.renames_number ρ) op s) ?_
  rintro ⟨value, rest⟩
  simp only [id]
  cases Decimal.whole? value <;> rfl

theorem result_rename (s : Stack) :
    Traced.ofExcept (rename ρ s).result = (Traced.ofExcept s.result).rename ρ id := by
  cases s with
  | nil => rfl
  | cons v rest => cases v <;> rfl

end Stack

/-! ### Calls -/

theorem Builtin.rename_call (b : Builtin) (args : List Float) :
    (b.call args).rename ρ id = b.call args := by
  unfold Builtin.call
  split
  case h_4 => split <;> rfl
  case h_12 =>
    change Traced.fail (RuntimeError.arity (ρ b.name) b.arity args.length) = _
    rw [ρ.builtin b]
  all_goals rfl

theorem Frame.rename_ofCall (params : List String) (args : List Float) :
    (Frame.ofCall params args).rename ρ = .ofCall (params.map ρ) args := by
  have hzip : (params.map ρ).zip args = (params.zip args).map (Prod.map ρ id) := by
    rw [List.zip_map_left]
  rw [Frame.ofCall, Frame.ofCall, hzip, ← Table.map_ofList]
  rfl

/-- How a run calls functions does not look into names. -/
def State.Caller.Renames (call call' : State.Caller) : Prop :=
  ∀ frame name args,
    call' (frame.rename ρ) (ρ name) args = (call frame name args).rename ρ id

theorem Frame.renames_call (limit : Option Nat) (depth : Nat) {enter enter' : Enter}
    (henter : ∀ body frame,
      enter' (Code.rename ρ body) (frame.rename ρ) = (enter body frame).rename ρ id) :
    State.Caller.Renames ρ (Frame.call limit depth enter) (Frame.call limit depth enter') := by
  intro frame name args
  have hlookup : (frame.rename ρ).functions.get? (ρ name) =
      (frame.functions.get? name).map (Closure.rename ρ) :=
    Table.get?_map ρ.injective _ _ _
  unfold Frame.call
  rw [ρ.ofName?_apply, hlookup]
  cases Builtin.ofName? name with
  | some b => exact (b.rename_call ρ args).symm
  | none =>
    cases frame.functions.get? name with
    | none => rfl
    | some closure =>
      simp only [Option.map_some, Closure.call, Closure.rename, List.length_map]
      by_cases harity : closure.params.length ≠ args.length
      · rw [if_pos harity, if_pos harity]
        rfl
      · rw [if_neg harity, if_neg harity]
        cases atLimit limit depth with
        | true => rfl
        | false =>
          refine Traced.rename_bind (Traced.rename_emit (.call name (depth + 1))) fun _ => ?_
          rw [← Frame.rename_ofCall, henter]

/-! ### Instructions -/

section
variable {ρ} {call call' : State.Caller} (hcall : State.Caller.Renames ρ call call')
include hcall

theorem State.operate_rename (op : Op) (s : State) :
    (s.rename ρ).operate call' op = (s.operate call op).rename ρ (State.rename ρ) := by
  obtain ⟨stack, frame⟩ := s
  cases op with
  | arithmetic operator =>
    refine Traced.rename_bind (Stack.pop_rename (Operand.renames_number ρ) _ _) ?_
    rintro ⟨x, stack⟩
    refine Traced.rename_bind (Stack.pop_rename (Operand.renames_number ρ) _ _) ?_
    rintro ⟨y, stack⟩
    exact Traced.rename_bind (Builtin.rename_call ρ _ _).symm fun value => rfl
  | negate =>
    refine Traced.rename_bind (Stack.pop_rename (Operand.renames_number ρ) _ _) ?_
    rintro ⟨x, stack⟩
    rfl
  | getLocal =>
    refine Traced.rename_bind (Stack.pop_rename (Operand.renames_name ρ) _ _) ?_
    rintro ⟨x, stack⟩
    have hlookup : (frame.rename ρ).locals.get? (ρ x) = (frame.locals.get? x).map id :=
      Table.get?_map ρ.injective _ _ _
    simp only [State.rename, hlookup]
    cases frame.locals.get? x <;> rfl
  | setLocal =>
    refine Traced.rename_bind (Stack.pop_rename (Operand.renames_name ρ) _ _) ?_
    rintro ⟨x, stack⟩
    refine Traced.rename_bind (Stack.pop_rename (Operand.renames_number ρ) _ _) ?_
    rintro ⟨value, stack⟩
    rfl
  | call =>
    refine Traced.rename_bind (Stack.pop_rename (Operand.renames_name ρ) _ _) ?_
    rintro ⟨name, stack⟩
    refine Traced.rename_bind (Stack.popCount_rename ρ _ _) ?_
    rintro ⟨count, stack⟩
    refine Traced.rename_bind (Stack.popMany_rename (Operand.renames_number ρ) _ _ _) ?_
    rintro ⟨args, stack⟩
    simp only [List.map_id]
    exact Traced.rename_bind (hcall frame name args) fun value => rfl
  | define =>
    refine Traced.rename_bind (Stack.pop_rename (Operand.renames_name ρ) _ _) ?_
    rintro ⟨name, stack⟩
    refine Traced.rename_bind (Stack.popCount_rename ρ _ _) ?_
    rintro ⟨count, stack⟩
    refine Traced.rename_bind (Stack.popMany_rename (Operand.renames_name ρ) _ _ _) ?_
    rintro ⟨params, stack⟩
    refine Traced.rename_bind (Stack.pop_rename (Operand.renames_block ρ) _ _) ?_
    rintro ⟨body, stack⟩
    simp only [List.length_map]
    exact Traced.rename_bind (Traced.rename_emit (.define name params.length)) fun _ => rfl

theorem State.steps_rename (code : Code) (s : State) :
    State.steps call' (Code.rename ρ code) (s.rename ρ) =
      (State.steps call code s).rename ρ (State.rename ρ) := by
  induction code generalizing s with
  | nil => rfl
  | cons i rest ih =>
    refine Traced.rename_bind ?_ ih
    cases i with
    | op op => exact State.operate_rename hcall op s
    | _ => rfl

end

/-! ### Code -/

theorem Code.runIn_rename (limit : Option Nat) (nesting depth : Nat) (code : Code) (frame : Frame) :
    Code.runIn limit nesting depth (Code.rename ρ code) (frame.rename ρ) =
      (Code.runIn limit nesting depth code frame).rename ρ id := by
  -- at nesting zero there is nothing to enter; above it, what is entered is code at a lower nesting
  have henter : ∀ body frame,
      Code.entering limit nesting depth (Code.rename ρ body) (Frame.rename ρ frame) =
        (Code.entering limit nesting depth body frame).rename ρ id := by
    cases nesting with
    | zero => exact fun _ _ => rfl
    | succ nesting => exact Code.runIn_rename limit nesting (depth + 1)
  have hcall := Frame.renames_call ρ limit depth henter
  rw [Code.runIn_eq]
  exact Traced.rename_bind (State.steps_rename hcall code ⟨[], frame⟩)
    fun s => Stack.result_rename ρ s.stack

theorem Code.rename_append (a b : Code) :
    Code.rename ρ (a ++ b) = Code.rename ρ a ++ Code.rename ρ b := by
  induction a with
  | nil => rfl
  | cons i rest ih => exact congrArg (i.rename ρ :: ·) ih

theorem Code.rename_names (names : List String) :
    Code.rename ρ (names.map Instr.name) = (names.map ρ).map Instr.name := by
  induction names with
  | nil => rfl
  | cons x rest ih => exact congrArg (Instr.name (ρ x) :: ·) ih

mutual

theorem Instr.nesting_rename : ∀ i : Instr, (i.rename ρ).nesting = i.nesting
  | .number _ => rfl
  | .name _ => rfl
  | .block code => congrArg (· + 1) (Code.nesting_rename code)
  | .op _ => rfl

theorem Code.nesting_rename : ∀ code : Code, Code.nesting (Code.rename ρ code) = Code.nesting code
  | [] => rfl
  | i :: rest => by simp only [Code.rename, Code.nesting, i.nesting_rename, Code.nesting_rename rest]

end

mutual

theorem Expr.compile_rename : ∀ e : Expr, (e.rename ρ).compile = Code.rename ρ e.compile
  | .number _ _ _ => rfl
  | .var _ _ => rfl
  | .binary _ _ left right => by
    simp only [Expr.rename, Expr.compile, left.compile_rename, right.compile_rename,
      Code.rename_append]
    rfl
  | .negate _ operand => by
    simp only [Expr.rename, Expr.compile, operand.compile_rename, Code.rename_append]
    rfl
  | .call _ _ args => by
    simp only [Expr.rename, Expr.compile, Expr.compileArgs_rename args, Expr.length_renameAll,
      Code.rename_append]
    rfl

theorem Expr.compileArgs_rename : ∀ es : List Expr,
    Expr.compileArgs (Expr.renameAll ρ es) = Code.rename ρ (Expr.compileArgs es)
  | [] => rfl
  | e :: rest => by
    simp only [Expr.renameAll, Expr.compileArgs, e.compile_rename, Expr.compileArgs_rename rest,
      Code.rename_append]

end

mutual

theorem Stmt.compile_rename : ∀ s : Stmt, (s.rename ρ).compile = Code.rename ρ s.compile
  | .define _ _ params _ body => by
    have hlength : (params.rename ρ).params.length = params.params.length := List.length_map _
    have hnames : Code.rename ρ (params.names.reverse.map Instr.name) =
        (params.rename ρ).names.reverse.map Instr.name := by
      rw [Code.rename_names, ParamList.names_rename, List.map_reverse]
    simp only [Stmt.rename, Stmt.compile, Stmt.compileAll_rename body, hlength, Code.rename,
      Code.rename_append, hnames]
    rfl
  | .assign _ _ value => by
    simp only [Stmt.rename, Stmt.compile, value.compile_rename, Code.rename_append]
    rfl
  | .expr e => e.compile_rename ρ

theorem Stmt.compileAll_rename : ∀ ss : List Stmt,
    Stmt.compileAll (Stmt.renameAll ρ ss) = Code.rename ρ (Stmt.compileAll ss)
  | [] => rfl
  | s :: rest => by
    simp only [Stmt.renameAll, Stmt.compileAll, s.compile_rename, Stmt.compileAll_rename rest,
      Code.rename_append]

end

theorem Code.run_rename (code : Code) (locals : Locals) (limit : Option Nat) :
    Code.run (Code.rename ρ code) (Locals.rename ρ locals) limit =
      (code.run locals limit).rename ρ id := by
  rw [Code.run, Code.run, Code.nesting_rename]
  exact Code.runIn_rename ρ limit code.nesting 0 code (.ofLocals locals)

end

end Abacus
