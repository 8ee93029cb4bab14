import Abacus.Decimal.Numeral
import Abacus.Syntax.Basic

/-!
# The canonical text of a program

One statement a line. The body of a definition stands behind its `=` if it is one statement, and in
braces, two blanks further in, if it is not. Brackets stand only where the text would read back as
another tree: chains group to the right, so the left operand of an operator has to bind more tightly
than the operator and the right one as tightly. A literal keeps the text it was written as.
-/
namespace Abacus.Layout

/-- Joins texts with a separator between every two of them, for arguments, parameters and statements
alike. -/
def join (separator : List Char) : List (List Char) → List Char
  | [] => []
  | [text] => text
  | text :: rest => text ++ separator ++ join separator rest

/-- Puts a text in brackets if need be, by the function of the same name. -/
def wrap (brackets : Bool) (text : List Char) : List Char :=
  if brackets then '(' :: (text ++ [')']) else text

/-- The text of a literal, by `format_number`: as written, or the shortest one for a value that was
computed. -/
def numeral (value : Float) (source : Option String) : List Char :=
  match source with
  | some source => source.toList
  | none => Decimal.renderChars value

/-! ## Juxtaposition -/

/-- Would a literal read on into the name behind it? The letter `e` starts an exponent, and after a
single `0` the letters `b`, `o` and `x` start a number in another base. A literal that is such a
number takes further digits. It is the last check of `juxtaposition`. -/
def merges (coefficient name : List Char) : Bool :=
  let based := match coefficient with
    | '0' :: mark :: _ => mark == 'b' || mark == 'o' || mark == 'x'
    | _ => false
  let exponent := name.head? == some 'e'
  let base := coefficient == ['0'] &&
    (name.head? == some 'b' || name.head? == some 'o' || name.head? == some 'x')
  based || exponent || base

/-- A product of a literal and a variable that is written as the one directly before the other, by
`juxtaposition`. The literal has to be finite and without a sign. -/
def juxtaposed? (op : Operator) (left right : Expr) : Option (List Char) :=
  match op, left, right with
  | .multiply, .number _ value source, .var _ name =>
    let coefficient := numeral value source
    if !value.isFinite || Decimal.isNegative value || merges coefficient name.toList then
      none
    else
      some (coefficient ++ name.toList)
  | _, _, _ => none

/-! ## Expressions -/

/-- Binds more tightly than every operator: the `ATOM` that the operand of a minus sign has to be.
-/
def atom : Nat :=
  4

mutual

/-- The text of an expression in a place where an operator of precedence below `tight` would have to
be put in brackets, by `format_expression` and `format_binary_op`. -/
def expr (tight : Nat) : Expr → List Char
  | .number _ value source =>
    wrap (Decimal.isNegative value && source.isNone && 0 < tight) (numeral value source)
  | .var _ name => name.toList
  | .binary _ op left right =>
    match juxtaposed? op left right with
    | some text => text
    | none =>
      wrap (op.precedence < tight)
        (expr (op.precedence + 1) left ++ ' ' :: op.symbol :: ' ' :: expr op.precedence right)
  | .negate _ operand => wrap (0 < tight) ('-' :: expr atom operand)
  | .call _ name args => name.toList ++ '(' :: (join [',', ' '] (exprs args) ++ [')'])

/-- The texts of arguments, none of which needs brackets. -/
def exprs : List Expr → List (List Char)
  | [] => []
  | e :: rest => expr 0 e :: exprs rest

end

/-! ## Statements -/

/-- A line end and the blanks before a statement at this depth, by `write_newline` and
`write_indent`. -/
def lineBreak (depth : Nat) : List Char :=
  '\n' :: List.replicate (2 * depth) ' '

/-- The head of a definition up to the blank behind its `=`. -/
def head (name : String) (params : ParamList) : List Char :=
  name.toList ++ '(' :: (join [',', ' '] (params.names.map String.toList) ++ [')', ' ', '=', ' '])

mutual

/-- The text of a statement whose line starts at this depth, by `format_statement` and
`format_define`. A body of one statement follows on the same line, whatever that statement is. -/
def stmt (depth : Nat) : Stmt → List Char
  | .define _ name params _ [single] => head name params ++ stmt depth single
  | .define _ name params _ [] => head name params ++ '\x7b' :: (lineBreak depth ++ ['\x7d'])
  | .define _ name params _ body =>
    head name params ++ '\x7b' ::
      (lineBreak (depth + 1) ++ join (lineBreak (depth + 1)) (stmts (depth + 1) body) ++
        lineBreak depth ++ ['\x7d'])
  | .assign _ name value => name.toList ++ ' ' :: '=' :: ' ' :: expr 0 value
  | .expr e => expr 0 e

/-- The texts of statements that start at this depth, in order. -/
def stmts (depth : Nat) : List Stmt → List (List Char)
  | [] => []
  | s :: rest => stmt depth s :: stmts depth rest

end

/-- The text of a block at the top level, by `format_statements`: a line for each statement, and no
line end behind the last. -/
def block (b : Block) : List Char :=
  join (lineBreak 0) (stmts 0 b.stmts)

end Layout

/-! ## As strings -/

/-- The text of an expression on its own, which is its `Display`. -/
def Expr.layout (e : Expr) : String :=
  String.ofList (Layout.expr 0 e)

/-- The text of a statement on its own, which is its `Display`. -/
def Stmt.layout (s : Stmt) : String :=
  String.ofList (Layout.stmt 0 s)

/-- The text of a block on its own, which is its `Display`. -/
def Block.layout (b : Block) : String :=
  String.ofList (Layout.block b)

/-- The canonical text of a program, that of its block. It is what `format` gives. -/
def Program.layout (p : Program) : String :=
  p.body.layout

end Abacus
