import Abacus.Machine.Call
import Abacus.Machine.Stack

/-!
# Running code

A run goes through the instructions once; a call runs the code of a function in a frame of its own.
A function is defined by a block of the running code, so its own code nests less deeply than that.
The nesting of the code therefore bounds the depth of calls, and every run ends.
-/
namespace Abacus

/-- A run between two instructions: its stack and its frame. -/
structure State where
  stack : Stack
  frame : Frame

namespace State

/-- The state with one more value on top of the stack. -/
def push (s : State) (value : Value) : State :=
  { s with stack := value :: s.stack }

/-- How a run calls functions, given its frame, the name of the function and the arguments. -/
abbrev Caller :=
  Frame → String → List Float → Traced RuntimeError Float

/-- Carries out one operation, by `step`: it takes its operands off the stack in this order, and
pushes what it comes to. An operation that defines a function pushes nothing. -/
def operate (call : Caller) (op : Op) (s : State) : Traced RuntimeError State :=
  match op with
  | .arithmetic operator => do
    let (left, stack) ← .ofExcept (s.stack.pop .number op)
    let (right, stack) ← .ofExcept (stack.pop .number op)
    let value ← (Builtin.ofOperator operator).call [left, right]
    pure { s with stack := .number value :: stack }
  | .negate => do
    let (value, stack) ← .ofExcept (s.stack.pop .number op)
    pure { s with stack := .number (-value) :: stack }
  | .getLocal => do
    let (name, stack) ← .ofExcept (s.stack.pop .name op)
    match s.frame.locals.get? name with
    | some value => pure { s with stack := .number value :: stack }
    | none => Traced.fail (.unknownVariable name)
  | .setLocal => do
    let (name, stack) ← .ofExcept (s.stack.pop .name op)
    let (value, stack) ← .ofExcept (stack.pop .number op)
    pure { stack := .number value :: stack, frame := s.frame.setLocal name value }
  | .call => do
    let (name, stack) ← .ofExcept (s.stack.pop .name op)
    let (count, stack) ← .ofExcept (stack.popCount op)
    let (args, stack) ← .ofExcept (stack.popMany .number op count)
    let value ← call s.frame name args
    pure { s with stack := .number value :: stack }
  | .define => do
    let (name, stack) ← .ofExcept (s.stack.pop .name op)
    let (count, stack) ← .ofExcept (stack.popCount op)
    let (params, stack) ← .ofExcept (stack.popMany .name op count)
    let (body, stack) ← .ofExcept (stack.pop .block op)
    Traced.emit (.define name params.length)
    pure { stack, frame := s.frame.define name { params, body } }

/-- Carries out one instruction: operands are pushed, and operations are carried out. -/
def step (call : Caller) (i : Instr) (s : State) : Traced RuntimeError State :=
  match i with
  | .number value => pure (s.push (.number value))
  | .name name => pure (s.push (.name name))
  | .block code => pure (s.push (.block code))
  | .op op => s.operate call op

/-- Carries out instructions in order, by the loop of `run_frame`, up to the first that fails. -/
def steps (call : Caller) : Code → State → Traced RuntimeError State
  | [], s => pure s
  | i :: rest, s => do
    let s ← s.step call i
    steps call rest s

end State

namespace Code

/-- Runs code in a frame, `depth` calls deep, by `run_frame`: an empty stack at the start, and at
the end what is on top of it. -/
def runWith (limit : Option Nat) (depth : Nat) (enter : Enter) : Enter := fun code frame => do
  let s ← State.steps (Frame.call limit depth enter) code { stack := [], frame }
  .ofExcept s.stack.result

/-- Runs code, `depth` calls deep, in which blocks nest at most `nesting` deep. Code without blocks
defines no function, so at nesting zero there is none to enter. The recursion of `run_frame` through
`call` has no bound of its own; this is the one it has in fact. -/
def runIn (limit : Option Nat) : (nesting depth : Nat) → Enter
  | 0, depth => runWith limit depth fun _ _ => .ofExcept (Stack.result [])
  | nesting + 1, depth => runWith limit depth (runIn limit nesting (depth + 1))

/-- Runs code with these variables, by `run` of the `Machine`. No call may nest deeper than `limit`,
if there is one. -/
def run (code : Code) (locals : Locals) (limit : Option Nat) : Traced RuntimeError Float :=
  code.runIn limit code.nesting 0 (.ofLocals locals)

end Code
end Abacus
