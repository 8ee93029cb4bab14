import Abacus.Grammar.Statement
import Abacus.Syntax.Node

/-!
# Reading programs

`Rule.read` runs a rule on a token list, inner phrases included. A cursor keeps a whole token list
and the index of the next token, for reading step by step; `Program.ofTokens` reads a program,
which has to take every token.
-/
namespace Abacus

namespace Rule

/-- The rule by which a phrase is read, wherever it occurs. -/
def ofPhrase : (phrase : Phrase) → Rule phrase.Tree
  | .expression => expression
  | .statement => statement

/-- Reads inner phrases that nest at most `depth` deep. Where no depth is left no token is left
either, and a missing value is what both phrases complain of there. -/
def innerTo : (depth : Nat) → Inner
  | 0, _, tokens => { result := .error (.unexpected "value" tokens), rest := tokens }
  | depth + 1, phrase, tokens => (ofPhrase phrase).run (innerTo depth) tokens

/-- Runs a rule with the phrases inside it. Inner phrases cannot nest deeper than there are tokens,
since each has a token before it. -/
def read {α : Type} (rule : Rule α) (tokens : List Token) : Outcome α :=
  rule.run (innerTo tokens.length) tokens

/-- Reads a statement list that takes every token: the last step of `parse`, which refuses a token
that is left over. -/
def readAll (tokens : List Token) : Outcome (List Stmt) :=
  match stmts.read tokens with
  | { result := .error e, rest } => { result := .error e, rest }
  | { result := .ok stmts, rest := [] } => { result := .ok stmts, rest := [] }
  | { result := .ok _, rest := t :: rest } =>
    { result := .error (.unexpected "newline or end of input" (t :: rest)), rest := t :: rest }

end Rule

/-- The program that a token list is, or the error of the first `parse` of it. Its nodes are
numbered when all of it has been read. -/
def Program.ofTokens (tokens : List Token) : Except SyntaxError Program :=
  (Rule.readAll tokens).result.map Program.ofStmts

/-! ## Step by step -/

/-- A `ParseState`: the whole token list and the index of the next token. The index may be beyond
the end, if it was put there. -/
structure Cursor where
  tokens : List Token
  index : Nat

namespace Cursor

/-- The cursor before the first token. -/
def ofTokens (tokens : List Token) : Cursor :=
  { tokens, index := 0 }

/-- The tokens from the cursor on, none if it is at the end or beyond. -/
def rest (c : Cursor) : List Token :=
  c.tokens.drop c.index

/-- The next token, if there is one, by `peek`; the cursor stays. -/
def peek? (c : Cursor) : Option Token :=
  c.rest.head?

/-- Is there a next token? `has_next` compares the index with the number of tokens. -/
def hasNext (c : Cursor) : Bool :=
  c.index < c.tokens.length

/-- The cursor behind the next token; at the end `advance` gives nothing and the cursor stays. -/
def advance (c : Cursor) : Cursor :=
  if c.hasNext then { c with index := c.index + 1 } else c

/-- The cursor at any index, also beyond the end: `restore` does not check it. -/
def restore (c : Cursor) (index : Nat) : Cursor :=
  { c with index }

/-- The error of wanting something else here. -/
def unexpected (c : Cursor) (expected : String) : SyntaxError :=
  .unexpected expected c.rest

/-- The cursor moved to where only `rest` is left. -/
def moveTo (c : Cursor) (rest : List Token) : Cursor :=
  { c with index := c.index + (c.rest.length - rest.length) }

/-- What a reading of the tokens that are left comes to, and the cursor behind it: one call of
`parse` on this state. -/
def run {α : Type} (c : Cursor) (read : List Token → Outcome α) :
    Except SyntaxError α × Cursor :=
  let outcome := read c.rest
  (outcome.result, c.moveTo outcome.rest)

end Cursor

end Abacus
