import Abacus.Code.Basic
import Abacus.Syntax.Basic

/-!
# From trees to code

Operands come before the operation that takes them, the right operand before the left and the last
argument before the first: `1 - 2` is `2 1 subtract`. A call pushes how many arguments it has and
its name; a definition pushes its body, its parameters, last first, how many they are, and its
name.
-/
namespace Abacus

/-- The number that says how many arguments or parameters there are. It is a float like any other
number, exact below `2 ^ 53`. -/
def Instr.count (n : Nat) : Instr :=
  .number (Float.ofNat n)

mutual

/-- The code of an expression, by `compile_into` and `compile_expression`. It leaves one number on
the stack. -/
def Expr.compile : Expr → Code
  | .number _ value _ => [.number value]
  | .var _ name => [.name name, .op .getLocal]
  | .binary _ op left right => right.compile ++ left.compile ++ [.op (.arithmetic op)]
  | .negate _ operand => operand.compile ++ [.op .negate]
  | .call _ name args =>
    Expr.compileArgs args ++ [Instr.count args.length, .name name, .op .call]

/-- The code of arguments, last first, so that the first one ends up on top. -/
def Expr.compileArgs : List Expr → Code
  | [] => []
  | e :: rest => Expr.compileArgs rest ++ e.compile

end

mutual

/-- The code of a statement. A definition leaves nothing on the stack, an assignment leaves its
value there. -/
def Stmt.compile : Stmt → Code
  | .define _ name params _ body =>
    .block (Stmt.compileAll body) ::
      (params.names.reverse.map Instr.name ++
        [Instr.count params.params.length, .name name, .op .define])
  | .assign _ name value => value.compile ++ [.name name, .op .setLocal]
  | .expr e => e.compile

/-- The code of statements, one after the other. -/
def Stmt.compileAll : List Stmt → Code
  | [] => []
  | s :: rest => s.compile ++ Stmt.compileAll rest

end

/-- The code of a block on its own, by `compile_block`. It is what the body of a function becomes.
-/
def Block.compile (b : Block) : Code :=
  Stmt.compileAll b.stmts

/-- The code of a program, which `compile` makes of it. -/
def Program.compile (p : Program) : Code :=
  p.body.compile

end Abacus
