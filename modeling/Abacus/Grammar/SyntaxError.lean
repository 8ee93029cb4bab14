import Abacus.Token.Basic

/-!
# Syntax errors

Errors come in two strengths. A plain error says that a rule does not match here and leaves the next
alternative to try. A committed error says that the text is malformed, whatever else is tried; it
passes through every choice and ends the reading.
-/
namespace Abacus

/-- A `ParseError`: what is wrong, what would have been right, what is there instead and where.
`committed` is its strength. -/
structure SyntaxError where
  what : String
  expected : List String
  found : Option String
  span : Option Text.Span
  committed : Bool
  deriving DecidableEq

namespace SyntaxError

/-- The error of a rule that wanted something else than the next token, or than the end of the
tokens. It is `unexpected` at a cursor with these tokens left. -/
def unexpected (expected : String) : List Token → SyntaxError
  | token :: _ =>
    { what := "unexpected token"
      expected := [expected]
      found := some token.describe
      span := some token.span
      committed := false }
  | [] =>
    { what := "unexpected end of input"
      expected := [expected]
      found := none
      span := none
      committed := false }

/-- The error of a definition that takes the name of a built-in function. It is committed from the
start, as no other reading of the text would help. -/
def redefinition (name : String) (span : Text.Span) : SyntaxError :=
  { what := s!"cannot redefine stdlib function '{name}'"
    expected := []
    found := none
    span := some span
    committed := true }

/-- The same error in its final strength, by `commit`. -/
def commit (e : SyntaxError) : SyntaxError :=
  { e with committed := true }

/-- Names what was expected, unless the error is final already: what `label` does to the error of
its rule. -/
def relabel (name : String) (e : SyntaxError) : SyntaxError :=
  if e.committed then e else { e with expected := [name] }

/-- The text of an error, by its `Display`: each part that is there, and the position at the end. -/
def message (e : SyntaxError) : String :=
  let expected := if e.expected.isEmpty then "" else ", expected " ++ " or ".intercalate e.expected
  let found := (e.found.map (", found " ++ ·)).getD ""
  let place := (e.span.map fun span => " at " ++ span.start.message).getD ""
  e.what ++ expected ++ found ++ place

end SyntaxError
end Abacus
