import Abacus.Decimal.Numeral
import Abacus.Operator

/-!
# Postfix code

Code is a list of instructions for a stack: numbers, names and blocks are pushed, operations take
what they need from the top. The first value an arithmetic operation takes is its left operand.
-/
namespace Abacus

/-- What an instruction can do to the stack: an `Op`, in which the six tags that `as_binary` knows
are one constructor. -/
inductive Op where
  | arithmetic (op : Operator)
  | negate
  | getLocal
  | setLocal
  | call
  | define
  deriving DecidableEq

/-- The name of an operator in listings and in errors. -/
def Operator.tag : Operator → String
  | .add => "add"
  | .subtract => "subtract"
  | .multiply => "multiply"
  | .divide => "divide"
  | .modulo => "modulo"
  | .exponentiate => "exponentiate"

/-- The name of an operation in listings and in errors, by `tag`. -/
def Op.tag : Op → String
  | arithmetic op => op.tag
  | negate => "negate"
  | getLocal => "getLocal"
  | setLocal => "setLocal"
  | call => "call"
  | define => "define"

/-- An `Instruction`. Numbers, names and blocks are operands; everything else is an operation on
what is on the stack. -/
inductive Instr where
  | number (value : Float)
  | name (name : String)
  /-- The body of a function, run when the function is called. -/
  | block (code : List Instr)
  | op (op : Op)

/-- Instructions in the order in which they are carried out. -/
abbrev Code := List Instr

/-! ## Listings -/

mutual

/-- The text of an instruction, by its `Display`: names in quotes, and blocks in brackets with
blanks between their instructions. -/
def Instr.listing : Instr → String
  | .number value => Decimal.render value
  | .name name => s!"'{name}'"
  | .block code => "[" ++ " ".intercalate (Code.listing code) ++ "]"
  | .op op => op.tag

/-- One text for each instruction, in order. -/
def Code.listing : Code → List String
  | [] => []
  | i :: rest => i.listing :: Code.listing rest

end

/-! ## Nesting -/

mutual

/-- How deeply blocks nest in an instruction. A block counts as one more than what is inside it. -/
def Instr.nesting : Instr → Nat
  | .block code => Code.nesting code + 1
  | .number _ => 0
  | .name _ => 0
  | .op _ => 0

/-- How deeply blocks nest in code, at the deepest place. A call can only go one block further in,
so this bounds the depth of calls. -/
def Code.nesting : Code → Nat
  | [] => 0
  | i :: rest => max i.nesting (Code.nesting rest)

end

end Abacus
