import Abacus.Grammar.SyntaxError
import Abacus.Syntax.Basic

/-!
# Grammar rules

A rule is data: it says which tokens it takes and what value it makes of them. Running a rule on the
tokens that are left gives a value or an error, and the tokens that are left then.

* A rule that fails leaves the tokens where it stopped. Only `orElse`, `optional` and `commit` go
  back to where they started, and they do so for plain errors only.
* `commit` makes a plain error final: the text had to go on in this way.
* `label` says in one word what the rule was looking for.
* `repeated` runs a rule until it gives nothing more.
* Expressions and statements occur inside themselves. A rule mentions them by `inner`, and
  `Rule.run` is told how to read them; the depth to which they nest is bounded by the number of
  tokens, since at least one token stands before each inner one.
-/
namespace Abacus

/-- What occurs inside itself: an expression in brackets or arguments, a statement in the body of a
function. -/
inductive Phrase where
  | expression
  | statement
  deriving DecidableEq

/-- The kind of tree that a phrase is read into. -/
abbrev Phrase.Tree : Phrase → Type
  | expression => Expr
  | statement => Stmt

/-- A rule that makes a value of the tokens it takes: a `BoxedParser`, as data instead of a
function. Each combinator is a constructor, or is written with `pure` and bind further down. -/
inductive Rule : Type → Type 1 where
  /-- Takes nothing and gives a value. -/
  | succeed {α : Type} (value : α) : Rule α
  /-- Takes nothing and gives an error. -/
  | fail {α : Type} (error : SyntaxError) : Rule α
  /-- Takes one token that `accept` has a value for, by `token_with_error`. -/
  | token {α : Type} (expected : String) (accept : Token → Option α) : Rule α
  /-- One rule and then another that may depend on what the first gave. -/
  | andThen {α β : Type} (first : Rule α) (next : α → Rule β) : Rule β
  /-- The first rule, or the second from where the first one started, by `or`. -/
  | orElse {α : Type} (first second : Rule α) : Rule α
  /-- The rule, with one word for whatever it expected, by `label`. -/
  | label {α : Type} (name : String) (rule : Rule α) : Rule α
  /-- The rule, where the text has to go on with it, by `commit`. -/
  | commit {α : Type} (name : String) (rule : Rule α) : Rule α
  /-- The rule, or nothing taken, by `optional`. -/
  | optional {α : Type} (rule : Rule α) : Rule (Option α)
  /-- The rule over and over until it gives nothing: the loops of the grammar. -/
  | repeated {α : Type} (rule : Rule (Option α)) : Rule (List α)
  /-- A phrase, where the grammar refers back to itself. -/
  | inner (phrase : Phrase) : Rule phrase.Tree

/-- What running a rule comes to: its value or its error, and the tokens from the cursor on,
wherever the rule left it. -/
structure Outcome (α : Type) where
  result : Except SyntaxError α
  rest : List Token

/-- How the phrases inside a rule are read, which running a rule has to be told. -/
abbrev Rule.Inner :=
  (phrase : Phrase) → List Token → Outcome phrase.Tree

namespace Rule

instance : Monad Rule where
  pure := succeed
  bind := andThen

/-- One rule after the other, for both values. -/
def seq {α β : Type} (first : Rule α) (second : Rule β) : Rule (α × β) := do
  let a ← first
  let b ← second
  pure (a, b)

/-- One rule after the other, for the value of the first. -/
def skip {α β : Type} (first : Rule α) (second : Rule β) : Rule α := do
  let a ← first
  let _ ← second
  pure a

/-- One rule after the other, for the value of the second; written `skip_left` there. -/
def skipLeft {α β : Type} (first : Rule α) (second : Rule β) : Rule β := do
  let _ ← first
  second

/-- Runs `step` as long as it gives something, at most `turns` times. A step that gives something
takes a token, so more turns than tokens are never needed. -/
def repeatStep {α : Type} (step : List Token → Outcome (Option α)) :
    (turns : Nat) → List Token → Outcome (List α)
  | 0, tokens => { result := .ok [], rest := tokens }
  | turns + 1, tokens =>
    match step tokens with
    | { result := .error e, rest } => { result := .error e, rest }
    | { result := .ok none, rest } => { result := .ok [], rest }
    | { result := .ok (some a), rest } =>
      match repeatStep step turns rest with
      | { result := .error e, rest } => { result := .error e, rest }
      | { result := .ok as, rest } => { result := .ok (a :: as), rest }

/-- Runs a rule on the tokens that are left, as `parse` of a `BoxedParser` does at a cursor. No rule
looks at the tokens before the cursor, so these are not there. -/
def run {α : Type} (inner : Inner) : Rule α → List Token → Outcome α
  | .succeed value, tokens => { result := .ok value, rest := tokens }
  | .fail error, tokens => { result := .error error, rest := tokens }
  | .token expected _, [] => { result := .error (.unexpected expected []), rest := [] }
  | .token expected accept, t :: tokens =>
    match accept t with
    | some value => { result := .ok value, rest := tokens }
    | none => { result := .error (.unexpected expected (t :: tokens)), rest := t :: tokens }
  | .andThen first next, tokens =>
    match first.run inner tokens with
    | { result := .ok a, rest } => (next a).run inner rest
    | { result := .error e, rest } => { result := .error e, rest }
  | .orElse first second, tokens =>
    match first.run inner tokens with
    | { result := .ok a, rest } => { result := .ok a, rest }
    | { result := .error e, rest } =>
      if e.committed then { result := .error e, rest } else second.run inner tokens
  | .label name rule, tokens =>
    match rule.run inner tokens with
    | { result := .ok a, rest } => { result := .ok a, rest }
    | { result := .error e, rest } => { result := .error (e.relabel name), rest }
  | .commit name rule, tokens =>
    match rule.run inner tokens with
    | { result := .ok a, rest } => { result := .ok a, rest }
    | { result := .error e, rest } =>
      if e.committed then { result := .error e, rest }
      else { result := .error (SyntaxError.unexpected name tokens).commit, rest := tokens }
  | .optional rule, tokens =>
    match rule.run inner tokens with
    | { result := .ok a, rest } => { result := .ok (some a), rest }
    | { result := .error e, rest } =>
      if e.committed then { result := .error e, rest } else { result := .ok none, rest := tokens }
  | .repeated rule, tokens => repeatStep (rule.run inner) (tokens.length + 1) tokens
  | .inner phrase, tokens => inner phrase tokens

/-! ## Single tokens -/

/-- One symbol: `expect_plus` for a plus sign, and so on for the other eleven. What it expected is
the symbol in quotes. -/
def symbol (s : Symbol) : Rule Token :=
  .token s.describe fun t => if t.kind = .symbol s then some t else none

/-- One line end, by `expect_newline`. -/
def newline : Rule Token :=
  .token "newline" fun t => if t.kind = .newline then some t else none

/-- One name and where it stands, by `spanned_name`. The place is for the error about a name that is
taken. -/
def spannedName : Rule (String × Text.Span) :=
  .token "name" fun t =>
    match t.kind with
    | .name name => some (name, t.span)
    | _ => none

/-- One name, without its place. -/
def name : Rule String := do
  let (name, _) ← spannedName
  pure name

/-- One number, as a literal that keeps its text. -/
def number : Rule Expr :=
  .token "number" fun t =>
    match t.kind with
    | .number value source => some (.number unnumbered value (some source))
    | _ => none

/-- One name, as a variable. -/
def var : Rule Expr := do
  let name ← name
  pure (.var unnumbered name)

end Rule
end Abacus
