import Abacus.CommandLine

/-!
# The program

Writes the report of its arguments.
-/

/-- Writes the report of the arguments to the two outputs and ends with its code. -/
def main (args : List String) : IO UInt32 := do
  let report := Abacus.CommandLine.run args
  IO.print report.out
  IO.eprint report.err
  pure report.code
