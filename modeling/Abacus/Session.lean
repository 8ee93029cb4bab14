import Abacus.Degree
import Abacus.Flow.Inference
import Abacus.Fold
import Abacus.Grammar.Reader
import Abacus.Layout
import Abacus.Token.Lexer

/-!
# From source to answer

What one can ask of a source text: its program, its value, its canonical text, its mismatches, its
degree. Each answer goes through the stages in order, reports an event for each stage that succeeds,
and stops at the first failure. The message of a failure names the stage and then tells the cause.
-/
namespace Abacus

/-! ## Failures -/

/-- What can go wrong between a source text and its value, by the stage at which it does: an
`Error`. -/
inductive Failure where
  | lexical (cause : LexError)
  | grammatical (cause : SyntaxError)
  | runtime (cause : RuntimeError)
  | degree (cause : DegreeError)
  deriving DecidableEq

namespace Failure

/-- The message of the cause alone, which `source` leads to. -/
def cause : Failure → String
  | lexical e => e.message
  | grammatical e => e.message
  | runtime e => e.message
  | degree e => e.message

/-- The message of a failure, by its `Display`: the stage, and then the cause. -/
def message : Failure → String
  | lexical e => "lexical error: " ++ e.message
  | grammatical e => "syntax error: " ++ e.message
  | runtime e => "runtime error: " ++ e.message
  | degree e => "degree error: " ++ e.message

end Failure

/-! ## Options -/

/-- What a user can set for the answers that run or format a program. -/
structure Options where
  /-- Fold constants first. -/
  fold : Bool
  /-- How deeply calls may nest; without a limit if none. -/
  maxCallDepth : Option Nat

/-- No folding, and no limit on calls: what the command line and the checker work with. -/
def Options.default : Options :=
  { fold := false, maxCallDepth := none }

/-! ## Stages -/

/-- The tokens of a source, and an event with their number: `tokenize`. -/
def readTokens (source : String) : Traced LexError (List Token) := do
  let tokens ← .ofExcept (tokenize source)
  Traced.emit (.tokenized tokens.length)
  pure tokens

/-- The program that a token list is, and an event with the number of its statements: `parse` of a
token list. -/
def readProgram (tokens : List Token) : Traced SyntaxError Program := do
  let program ← .ofExcept (Program.ofTokens tokens)
  Traced.emit (.parsed program.stmts.length)
  pure program

/-- The program with its constants folded, and an event with the number of nodes that were:
`optimize`. -/
def foldProgram {ε : Type} (p : Program) : Traced ε Program := do
  Traced.emit (.folded p.foldCount)
  pure p.fold

/-- The code of a program, and an event with its length: `compile`. -/
def compileProgram {ε : Type} (p : Program) : Traced ε Code := do
  let code := p.compile
  Traced.emit (.compiled code.length)
  pure code

/-- The mismatches of a program, and an event with their number and that of the vertices: `check`.
-/
def checkProgram {ε : Type} (p : Program) : Traced ε (List Mismatch) := do
  let graph := p.flowGraph
  let mismatches := graph.mismatches
  Traced.emit (.checked graph.size mismatches.length)
  pure mismatches

/-- The degree of a function, and an event with its name and the degree, also if that is NaN:
`degree`. -/
def degreeOf (d : Define) : Traced DegreeError Float := do
  let degree ← .ofExcept d.degree
  Traced.emit (.degree d.name degree)
  pure degree

/-! ## Answers -/

/-- The program of a source, folded if asked for, by `parse_source`. Every answer but the degree
starts with it. -/
def parse (source : String) (fold : Bool) : Traced Failure Program := do
  let tokens ← (readTokens source).mapError .lexical
  let program ← (readProgram tokens).mapError .grammatical
  if fold then foldProgram program else pure program

/-- The value of a program: the second half of `evaluate`, from the compiling on. -/
def Program.evaluate (p : Program) (maxCallDepth : Option Nat) : Traced Failure Float := do
  let code ← compileProgram p
  (code.run {} maxCallDepth).mapError .runtime

/-- The value of a source, with no variables to begin with. -/
def evaluate (source : String) (options : Options) : Traced Failure Float := do
  let program ← parse source options.fold
  program.evaluate options.maxCallDepth

/-- The canonical text of a source. A source that reads as a program has one, whether or not it
runs. -/
def format (source : String) (options : Options) : Traced Failure String := do
  let program ← parse source options.fold
  pure program.layout

/-- The mismatches of a source, a line for each, by `check_source`. They are those of the program as
it was written, nothing folded. -/
def check (source : String) : Traced Failure (List String) := do
  let program ← parse source false
  let mismatches ← checkProgram program
  pure (mismatches.map Mismatch.message)

/-- Calls a function of its own, outside of its program: its body runs with the arguments as
variables, without a limit, and sees no other function of that program. -/
def Define.execute (d : Define) (args : List Float) : Traced Failure Float :=
  if d.params.params.length ≠ args.length then
    Traced.fail (.runtime (.arity d.name d.params.params.length args.length))
  else
    (d.body.compile.run (.ofList (d.params.names.zip args)) none).mapError .runtime

end Abacus
