import Abacus.Grammar.Reader

/-!
# The grammar by reference

The rules of the grammar contain one another, and what contains itself is mentioned by `inner`. Here each
rule has a name, and the `production` of a name is the rule with the other ones by reference. That makes
visible where a rule enters another one. The rules are the productions with their references resolved
(`Nonterminal.rule_eq`): what is lower in the hierarchy stands there in full, the rest by `inner`.
-/
namespace Abacus

/-- The rules of the grammar. -/
inductive Nonterminal where
  | stmts
  | statement
  | define
  | assign
  | expression
  | term
  | power
  | value
  | call
  | var
  | number
  | name
  deriving DecidableEq

namespace Nonterminal

abbrev Tree : Nonterminal → Type
  | stmts => List Stmt
  | statement | define | assign => Stmt
  | expression | term | power | value | call | var | number => Expr
  | name => String

/-- The place in the hierarchy. -/
def rank : Nonterminal → Nat
  | stmts => 8
  | statement => 7
  | define | assign => 6
  | expression => 5
  | term => 4
  | power => 3
  | value => 2
  | call | var | number => 1
  | name => 0

def rule : (n : Nonterminal) → Rule n.Tree
  | stmts => .stmts
  | statement => .statement
  | define => .define
  | assign => .assign
  | expression => .expression
  | term => .term
  | power => .power
  | value => .value
  | call => .call
  | var => .var
  | number => .number
  | name => .name

/-- The rule as it is mentioned inside itself. -/
def innerRule : (n : Nonterminal) → Rule n.Tree
  | stmts => Rule.statementList .innerStatement
  | statement => .innerStatement
  | expression => .innerExpression
  | n => n.rule

/-- The rule of `m` as it is mentioned in that of `n`. -/
def mention (n m : Nonterminal) : Rule m.Tree :=
  if m.rank < n.rank then m.rule else m.innerRule

end Nonterminal

/-- A rule in which others stand by reference. -/
inductive Production : Type → Type 1 where
  | succeed {α : Type} (value : α) : Production α
  | fail {α : Type} (error : SyntaxError) : Production α
  | token {α : Type} (expected : String) (accept : Token → Option α) : Production α
  | andThen {α β : Type} (first : Production α) (next : α → Production β) : Production β
  | orElse {α : Type} (first second : Production α) : Production α
  | label {α : Type} (name : String) (rule : Production α) : Production α
  | commit {α : Type} (name : String) (rule : Production α) : Production α
  | optional {α : Type} (rule : Production α) : Production (Option α)
  | repeated {α : Type} (rule : Production (Option α)) : Production (List α)
  | refer (n : Nonterminal) : Production n.Tree

/-- The rule by reference to what stands inside it. -/
def Rule.production {α : Type} : Rule α → Production α
  | .succeed value => .succeed value
  | .fail error => .fail error
  | .token expected accept => .token expected accept
  | .andThen first next => .andThen first.production fun a => (next a).production
  | .orElse first second => .orElse first.production second.production
  | .label name rule => .label name rule.production
  | .commit name rule => .commit name rule.production
  | .optional rule => .optional rule.production
  | .repeated rule => .repeated rule.production
  | .inner .expression => .refer .expression
  | .inner .statement => .refer .statement

namespace Production

instance : Monad Production where
  pure := succeed
  bind := andThen

/-- The rule with its references resolved. -/
def resolve {α : Type} (rules : (n : Nonterminal) → Rule n.Tree) : Production α → Rule α
  | .succeed value => .succeed value
  | .fail error => .fail error
  | .token expected accept => .token expected accept
  | .andThen first next => .andThen (first.resolve rules) fun a => (next a).resolve rules
  | .orElse first second => .orElse (first.resolve rules) (second.resolve rules)
  | .label name rule => .label name (rule.resolve rules)
  | .commit name rule => .commit name (rule.resolve rules)
  | .optional rule => .optional (rule.resolve rules)
  | .repeated rule => .repeated (rule.resolve rules)
  | .refer n => rules n

/-! ## The productions -/

def skip {α β : Type} (first : Production α) (second : Production β) : Production α := do
  let a ← first
  let _ ← second
  pure a

def skipLeft {α β : Type} (first : Production α) (second : Production β) : Production β := do
  let _ ← first
  second

def symbol (s : Symbol) : Production Token :=
  (Rule.symbol s).production

/-- The turn of a repetition: `first`, if it is there, and what then has to follow. -/
def opened {α β : Type} (first : Production α) (next : α → Production (Option β)) :
    Production (Option β) := do
  match ← first.optional with
  | none => pure none
  | some a => next a

def chain (operand : Production Expr) (operator : Rule Operator) (what : String) :
    Production Expr := do
  let first ← operand
  let rest ← (opened operator.production fun op => do
    let next ← operand.commit what
    pure (some (op, next))).repeated
  pure (Rule.nestRight first rest)

def arguments : Production (List Expr) := do
  let first ← refer .expression
  let rest ← (opened (symbol .comma) fun _ => do
    let arg ← (refer .expression).commit "argument"
    pure (some arg)).repeated
  pure (first :: rest)

def grouped : Production Expr :=
  ((symbol .openParen).skipLeft (refer .expression)).skip (symbol .closeParen)

def negated : Production Expr := do
  let operand ← (symbol .minus).skipLeft (refer .expression)
  pure (.negate unnumbered operand)

def juxtaposed : Production Expr := do
  let coefficient ← refer .number
  let name ← refer .name
  pure (.binary unnumbered .multiply coefficient (.var unnumbered name))

def param : Production Param := do
  let name ← refer .name
  pure { id := unnumbered, name }

def params : Production (List Param) := do
  let first ← param
  let rest ← (opened (symbol .comma) fun _ => do
    let param ← param
    pure (some param)).repeated
  pure (first :: rest)

def bracedBody : Production (List Stmt) :=
  (((symbol .openBrace).skipLeft Rule.newline.production).skipLeft (refer .stmts)).skip
    (symbol .closeBrace)

def inlineBody : Production (List Stmt) := do
  let stmt ← (refer .statement).commit "function body"
  pure [stmt]

def defineHead : Production ((String × Text.Span) × List Param) := do
  let name ← Rule.spannedName.production.skip (symbol .openParen)
  let params ← params.optional
  let _ ← symbol .closeParen
  let _ ← symbol .equals
  pure (name, params.getD [])

end Production

namespace Nonterminal

open Production

def production : (n : Nonterminal) → Production n.Tree
  | stmts => do
    match ← (refer .statement).optional with
    | none => pure []
    | some first =>
      let rest ← (opened Rule.newline.production fun _ => (refer .statement).optional).repeated
      pure (first :: rest)
  | statement => (refer .define).orElse <| (refer .assign).orElse do
    let e ← refer .expression
    pure (.expr e)
  | define => do
    let ((f, span), params) ← defineHead
    let _ ← (Rule.ownName f span).production
    let body ← bracedBody.orElse inlineBody
    pure (.define unnumbered f { id := unnumbered, params } unnumbered body)
  | assign => do
    let x ← (refer .name).skip (symbol .equals)
    let value ← refer .expression
    pure (.assign unnumbered x value)
  | expression => chain (refer .term) Rule.additive "expression"
  | term => chain (refer .power) Rule.multiplicative "term"
  | power => chain (refer .value) Rule.exponential "power"
  | value => .label "value" <| grouped.orElse <| negated.orElse <| juxtaposed.orElse <|
      (refer .call).orElse <| (refer .var).orElse (refer .number)
  | call => do
    let f ← (refer .name).skip (symbol .openParen)
    let args ← arguments.optional
    let _ ← symbol .closeParen
    pure (.call unnumbered f (args.getD []))
  | var => do
    let x ← refer .name
    pure (.var unnumbered x)
  | number => Rule.number.production
  | name => Rule.name.production

end Nonterminal

/-! ## The rules are the productions -/

namespace Production

variable {α β : Type} {rules : (n : Nonterminal) → Rule n.Tree}

theorem resolve_bind {first : Production α} {next : α → Production β} {first' : Rule α}
    {next' : α → Rule β} (hfirst : first.resolve rules = first')
    (hnext : ∀ a, (next a).resolve rules = next' a) :
    (first >>= next).resolve rules = (first' >>= next') := by
  obtain rfl := funext hnext
  rw [← hfirst]
  rfl

theorem resolve_opened {first : Production α} {next : α → Production (Option β)} {first' : Rule α}
    {next' : Option α → Rule (Option β)} (hfirst : first.resolve rules = first')
    (hnone : pure none = next' none) (hsome : ∀ a, (next a).resolve rules = next' (some a)) :
    (opened first next).resolve rules = (first'.optional >>= next') := by
  refine resolve_bind (congrArg Rule.optional hfirst) fun choice => ?_
  cases choice with
  | none => exact hnone
  | some a => exact hsome a

theorem resolve_chain {operand : Production Expr} {operator : Rule Operator} {what : String}
    (hoperator : operator.production.resolve rules = operator) :
    (chain operand operator what).resolve rules =
      Rule.chain (operand.resolve rules) operator what :=
  resolve_bind rfl fun _ => resolve_bind
    (congrArg Rule.repeated (resolve_opened hoperator rfl fun _ => rfl)) fun _ => rfl

theorem resolve_arguments (h : rules .expression = Rule.innerExpression) :
    arguments.resolve rules = Rule.arguments := by
  refine resolve_bind h fun _ => resolve_bind (congrArg Rule.repeated ?_) fun _ => rfl
  refine resolve_opened rfl rfl fun _ => ?_
  exact resolve_bind (congrArg (Rule.commit "argument") h) fun _ => rfl

theorem resolve_params (h : rules .name = Rule.name) : params.resolve rules = Rule.params := by
  have hparam : param.resolve rules = Rule.param := resolve_bind h fun _ => rfl
  refine resolve_bind hparam fun _ => resolve_bind (congrArg Rule.repeated ?_) fun _ => rfl
  exact resolve_opened rfl rfl fun _ => resolve_bind hparam fun _ => rfl

theorem resolve_defineHead (h : rules .name = Rule.name) :
    defineHead.resolve rules = Rule.defineHead :=
  resolve_bind rfl fun _ => resolve_bind (congrArg Rule.optional (resolve_params h)) fun _ => rfl

theorem resolve_ownName (f : String) (span : Text.Span) :
    (Rule.ownName f span).production.resolve rules = Rule.ownName f span := by
  unfold Rule.ownName
  cases Builtin.ofName? f <;> rfl

theorem resolve_stmts :
    Nonterminal.stmts.production.resolve rules = Rule.statementList (rules .statement) := by
  refine resolve_bind rfl fun choice => ?_
  cases choice with
  | none => rfl
  | some first =>
    exact resolve_bind (congrArg Rule.repeated (resolve_opened rfl rfl fun _ => rfl)) fun _ => rfl

end Production

namespace Nonterminal

open Production

/-- The rules of the grammar are the productions with their references resolved. -/
theorem rule_eq (n : Nonterminal) : n.rule = n.production.resolve n.mention := by
  symm
  cases n with
  | stmts => exact resolve_stmts
  | statement => rfl
  | define =>
    refine resolve_bind (resolve_defineHead rfl) fun head => ?_
    exact resolve_bind (resolve_ownName head.1.1 head.1.2) fun _ => rfl
  | assign => rfl
  | expression => exact resolve_chain rfl
  | term => exact resolve_chain rfl
  | power => exact resolve_chain rfl
  | value => rfl
  | call =>
    refine resolve_bind rfl fun _ => resolve_bind (congrArg Rule.optional ?_) fun _ => rfl
    exact resolve_arguments rfl
  | var => rfl
  | number => rfl
  | name => rfl

end Nonterminal
end Abacus
