import Abacus.Session

/-!
# The command line

Every argument but `--` is a source. Their values are printed, a line for each, until one of them
fails; then its failure and the cause of that are printed as an error, and the exit code is one.
-/
namespace Abacus.CommandLine

/-- What a command writes and how it ends: its output, its error output and its exit code. -/
structure Report where
  out : String
  err : String
  code : UInt32
  deriving DecidableEq

/-- The text in which a failure is reported: its message, and below that its cause by itself. -/
def failureText (e : Failure) : String :=
  "Error: " ++ e.message ++ "\n\nCaused by:\n    " ++ e.cause ++ "\n"

/-- Evaluates sources in order, by the loop of `main`: a line for each value, until one of them
fails. What was printed before that stays printed. -/
def evaluateAll : List String → Report
  | [] => { out := "", err := "", code := 0 }
  | source :: rest =>
    match (evaluate source .default).result with
    | .error e => { out := "", err := failureText e, code := 1 }
    | .ok value =>
      let report := evaluateAll rest
      { report with out := Decimal.render value ++ "\n" ++ report.out }

/-- The report of a command's arguments. An argument `--` is no source. -/
def run (args : List String) : Report :=
  evaluateAll (args.filter (· != "--"))

end Abacus.CommandLine
