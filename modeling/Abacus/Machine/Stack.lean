import Abacus.Machine.Basic

/-!
# The stack

A list of values, the top first. Taking a value of the wrong kind, or from an empty stack, is an
error that names the operation at fault.

What an operation wants to take is an `Operand`: a kind of value, and what a value of that kind
holds. There are three of them, and one way to take them: `pop` takes one value, `popMany` takes as
many as a count says.
-/
namespace Abacus

/-- A kind of value that operations take off the stack, and what such a value holds. Taking a value
apart is the converse of building it, so nothing is lost between a stack and the operation. -/
structure Operand (α : Type) where
  /-- How `mismatch` names the kind; the same word that `Value.kind` gives. -/
  kind : String
  /-- The value that holds this. -/
  hold : α → Value
  /-- What a value of this kind holds; a value of another kind holds nothing. -/
  held? : Value → Option α
  held?_eq_some : ∀ {v : Value} {a : α}, held? v = some a ↔ v = hold a

namespace Operand

/-- The operand that `pop_number` takes. -/
abbrev number : Operand Float where
  kind := "number"
  hold := .number
  held?
    | .number value => some value
    | _ => none
  held?_eq_some {v _} := by cases v <;> simp

/-- The operand that `pop_name` takes. -/
abbrev name : Operand String where
  kind := "name"
  hold := .name
  held?
    | .name name => some name
    | _ => none
  held?_eq_some {v _} := by cases v <;> simp

/-- The operand that `pop_block` takes. -/
abbrev block : Operand Code where
  kind := "block"
  hold := .block
  held?
    | .block code => some code
    | _ => none
  held?_eq_some {v _} := by cases v <;> simp

end Operand

/-- The stack of one run, its top first: the `Stack` that `run_frame` starts empty. Pushing is
`cons`. -/
abbrev Stack := List Value

namespace Stack

/-- The error of `pop` on an empty stack, which names the operation that wanted a value. -/
def underflow (op : Op) : RuntimeError :=
  let tag := op.tag
  .malformed s!"stack underflow in '{tag}'"

/-- The error of an operation that found a value of another kind than it wanted, worded as by the
function of the same name. -/
def mismatch (op : Op) (expected : String) (found : Value) : RuntimeError :=
  let tag := op.tag
  let kind := found.kind
  .malformed s!"'{tag}' expected a {expected}, found a {kind}"

variable {α : Type}

/-- Takes one operand off the stack: `pop_number`, `pop_name` or `pop_block`, as the operand is a
number, a name or a block. -/
def pop (operand : Operand α) (op : Op) : Stack → Except RuntimeError (α × Stack)
  | [] => .error (underflow op)
  | value :: rest =>
    match operand.held? value with
    | some a => .ok (a, rest)
    | none => .error (mismatch op operand.kind value)

theorem pop_hold (operand : Operand α) (op : Op) (a : α) (s : Stack) :
    pop operand op (operand.hold a :: s) = .ok (a, s) := by
  rw [pop, operand.held?_eq_some.mpr rfl]

@[simp] theorem pop_number (op : Op) (value : Float) (s : Stack) :
    pop .number op (.number value :: s) = .ok (value, s) :=
  rfl

@[simp] theorem pop_name (op : Op) (name : String) (s : Stack) :
    pop .name op (.name name :: s) = .ok (name, s) :=
  rfl

@[simp] theorem pop_block (op : Op) (code : Code) (s : Stack) :
    pop .block op (.block code :: s) = .ok (code, s) :=
  rfl

/-- Takes a number of arguments or parameters, as `pop_count` does: a number on top that is whole
and not below zero. A number that is not is shown in the error. -/
def popCount (op : Op) (s : Stack) : Except RuntimeError (Nat × Stack) := do
  let (value, s) ← pop .number op s
  match Decimal.whole? value with
  | some n => .ok (n, s)
  | none =>
    let shown := Decimal.render value
    let tag := op.tag
    .error (.malformed s!"invalid count {shown} in '{tag}'")

/-- Takes `n` operands, the first one from the top, and fails with the first that cannot be taken:
the arguments of a call and the parameters of a definition, collected by `step`. -/
def popMany (operand : Operand α) (op : Op) : Nat → Stack → Except RuntimeError (List α × Stack)
  | 0, s => .ok ([], s)
  | n + 1, s => do
    let (a, s) ← pop operand op s
    let (as, s) ← popMany operand op n s
    pure (a :: as, s)

/-- What a run comes to, by the function `result`: the number on top, NaN if there is nothing, an
error if there is a name or a block. -/
def result : Stack → Except RuntimeError Float
  | [] => .ok (0 / 0)
  | .number value :: _ => .ok value
  | other :: _ =>
    let kind := other.kind
    .error (.malformed s!"program left a {kind} on top of the stack")

end Stack
end Abacus
