import Abacus.Proofs.Grammar.Parts

/-!
# The grammar looks at kinds only

Where a token stands decides nothing. Token lists of the same kinds are read as the same program, or
fail with errors that differ in their place only (`Program.ofTokens_kinds`).

The rule of a definition hands the place of its name on, to an error that may come later. So what is
closed under every way to build a rule is a relation between two rules (`Rule.Alike`): run on tokens
of the same kinds they come to related values. Most rules make a value without places, and are
related to themselves by equality (`Rule.Blind`). Then each rule of the grammar goes through by its
parts, and the inner phrases by induction on how deep they nest.
-/
namespace Abacus

/-! ## Errors and outcomes -/

namespace SyntaxError

/-- The error without its place. -/
def unplaced (e : SyntaxError) : SyntaxError :=
  { e with span := none }

theorem unplaced_eq_iff {e e' : SyntaxError} : e.unplaced = e'.unplaced ↔
    e.what = e'.what ∧ e.expected = e'.expected ∧ e.found = e'.found ∧
      e.committed = e'.committed := by
  simp [unplaced]

theorem committed_eq {e e' : SyntaxError} (h : e.unplaced = e'.unplaced) :
    e.committed = e'.committed :=
  (unplaced_eq_iff.mp h).2.2.2

theorem unplaced_relabel (name : String) (e : SyntaxError) :
    (e.relabel name).unplaced = e.unplaced.relabel name := by
  have hcommitted : e.unplaced.committed = e.committed := rfl
  unfold relabel
  rw [hcommitted]
  split <;> rfl

end SyntaxError

theorem Token.describe_eq {t t' : Token} (h : t.kind = t'.kind) : t.describe = t'.describe := by
  unfold Token.describe
  rw [h]

theorem SyntaxError.unplaced_unexpected (expected : String) {tokens tokens' : List Token}
    (h : kinds tokens = kinds tokens') :
    (unexpected expected tokens).unplaced = (unexpected expected tokens').unplaced := by
  cases tokens with
  | nil =>
    obtain rfl := List.map_eq_nil_iff.mp h.symm
    rfl
  | cons t ts =>
    obtain ⟨t', ts', rfl, hkind, -⟩ := kinds_eq_cons.mp h.symm
    simp only [unexpected, unplaced, Token.describe_eq hkind]

/-- Related values, or errors that differ in their place only, and tokens of the same kinds left. -/
inductive Outcome.Alike {α β : Type} (R : α → β → Prop) : Outcome α → Outcome β → Prop
  | ok {a : α} {b : β} {rest rest' : List Token} (h : R a b) (hrest : kinds rest = kinds rest') :
      Alike R { result := .ok a, rest } { result := .ok b, rest := rest' }
  | error {e e' : SyntaxError} {rest rest' : List Token} (h : e.unplaced = e'.unplaced)
      (hrest : kinds rest = kinds rest') :
      Alike R { result := .error e, rest } { result := .error e', rest := rest' }

namespace Rule

/-! ## Ways to build rules -/

/-- Run on tokens of the same kinds, the two rules come to outcomes that are alike. -/
def Alike {α β : Type} (inner : Inner) (R : α → β → Prop) (rule : Rule α) (rule' : Rule β) : Prop :=
  ∀ tokens tokens' : List Token, kinds tokens = kinds tokens' →
    (rule.run inner tokens).Alike R (rule'.run inner tokens')

/-- What the rule makes of tokens depends on their kinds only. -/
def Blind {α : Type} (inner : Inner) (rule : Rule α) : Prop :=
  Alike inner Eq rule rule

namespace Alike

variable {α β γ δ : Type} {inner : Inner} {R : α → β → Prop} {S : γ → δ → Prop}
variable {rule second : Rule α} {rule' second' : Rule β}

theorem pure {a : α} {b : β} (h : R a b) : Alike inner R (Pure.pure a) (Pure.pure b) :=
  fun _ _ htokens => .ok h htokens

theorem fail {e e' : SyntaxError} (h : e.unplaced = e'.unplaced) :
    Alike inner R (.fail e) (.fail e') :=
  fun _ _ htokens => .error h htokens

theorem token (expected : String) {accept : Token → Option α} {accept' : Token → Option β}
    (h : ∀ t t' : Token, t.kind = t'.kind → Option.Rel R (accept t) (accept' t')) :
    Alike inner R (.token expected accept) (.token expected accept') := by
  intro tokens tokens' htokens
  have herror := SyntaxError.unplaced_unexpected expected htokens
  cases tokens with
  | nil =>
    obtain rfl := List.map_eq_nil_iff.mp htokens.symm
    exact .error herror htokens
  | cons t ts =>
    obtain ⟨t', ts', rfl, hkind, hrest⟩ := kinds_eq_cons.mp htokens.symm
    have haccept := h t t' hkind.symm
    rw [run, run]
    generalize accept t = value, accept' t' = value' at haccept ⊢
    cases haccept with
    | none => exact .error herror htokens
    | some hvalue => exact .ok hvalue hrest.symm

theorem bind {next : α → Rule γ} {next' : β → Rule δ} (h : Alike inner R rule rule')
    (hnext : ∀ a b, R a b → Alike inner S (next a) (next' b)) :
    Alike inner S (rule >>= next) (rule' >>= next') := by
  intro tokens tokens' htokens
  rw [run_bind, run_bind]
  generalize rule.run inner tokens = x, rule'.run inner tokens' = x', h _ _ htokens = hx
  cases hx with
  | ok hab hrest => exact hnext _ _ hab _ _ hrest
  | error herror hrest => exact .error herror hrest

theorem orElse (h : Alike inner R rule rule') (hsecond : Alike inner R second second') :
    Alike inner R (rule.orElse second) (rule'.orElse second') := by
  intro tokens tokens' htokens
  rw [run, run]
  generalize rule.run inner tokens = x, rule'.run inner tokens' = x', h _ _ htokens = hx
  cases hx with
  | ok hab hrest => exact .ok hab hrest
  | @error e e' rest rest' herror hrest =>
    have hcommitted := SyntaxError.committed_eq herror
    dsimp only
    rw [hcommitted]
    split
    · exact .error herror hrest
    · exact hsecond _ _ htokens

theorem label (name : String) (h : Alike inner R rule rule') :
    Alike inner R (.label name rule) (.label name rule') := by
  intro tokens tokens' htokens
  rw [run, run]
  generalize rule.run inner tokens = x, rule'.run inner tokens' = x', h _ _ htokens = hx
  cases hx with
  | ok hab hrest => exact .ok hab hrest
  | error herror hrest =>
    refine .error ?_ hrest
    rw [SyntaxError.unplaced_relabel, SyntaxError.unplaced_relabel, herror]

theorem commit (name : String) (h : Alike inner R rule rule') :
    Alike inner R (.commit name rule) (.commit name rule') := by
  intro tokens tokens' htokens
  rw [run, run]
  generalize rule.run inner tokens = x, rule'.run inner tokens' = x', h _ _ htokens = hx
  cases hx with
  | ok hab hrest => exact .ok hab hrest
  | @error e e' rest rest' herror hrest =>
    have hcommitted := SyntaxError.committed_eq herror
    dsimp only
    rw [hcommitted]
    split
    · exact .error herror hrest
    · have hunexpected := SyntaxError.unplaced_unexpected name htokens
      exact .error (congrArg SyntaxError.commit hunexpected) htokens

theorem optional (h : Alike inner R rule rule') :
    Alike inner (Option.Rel R) (.optional rule) (.optional rule') := by
  intro tokens tokens' htokens
  rw [run, run]
  generalize rule.run inner tokens = x, rule'.run inner tokens' = x', h _ _ htokens = hx
  cases hx with
  | ok hab hrest => exact .ok (.some hab) hrest
  | @error e e' rest rest' herror hrest =>
    have hcommitted := SyntaxError.committed_eq herror
    dsimp only
    rw [hcommitted]
    split
    · exact .error herror hrest
    · exact .ok .none htokens

/-- A rule that goes on in one of two ways, by whether another one reads something. -/
theorem bindOptional {next : Option α → Rule γ} {next' : Option β → Rule δ}
    (h : Alike inner R rule rule') (hnone : Alike inner S (next none) (next' none))
    (hsome : ∀ a b, R a b → Alike inner S (next (some a)) (next' (some b))) :
    Alike inner S (rule.optional >>= next) (rule'.optional >>= next') := by
  refine h.optional.bind ?_
  rintro _ _ (hab | _)
  · exact hsome _ _ hab
  · exact hnone

theorem skip (h : Alike inner R rule rule') {after : Rule γ} {after' : Rule δ}
    (hafter : Alike inner S after after') : Alike inner R (rule.skip after) (rule'.skip after') :=
  h.bind fun _ _ hab => hafter.bind fun _ _ _ => .pure hab

theorem skipLeft (h : Alike inner R rule rule') {after : Rule γ} {after' : Rule δ}
    (hafter : Alike inner S after after') :
    Alike inner S (rule.skipLeft after) (rule'.skipLeft after') :=
  h.bind fun _ _ _ => hafter

end Alike

namespace Blind

variable {α β : Type} {inner : Inner} {rule : Rule α}

theorem pure (a : α) : Blind inner (Pure.pure a) :=
  Alike.pure rfl

theorem bind {next : α → Rule β} (h : Blind inner rule) (hnext : ∀ a, Blind inner (next a)) :
    Blind inner (rule >>= next) :=
  Alike.bind h fun a _ heq => heq ▸ hnext a

theorem commit (name : String) (h : Blind inner rule) : Blind inner (.commit name rule) :=
  Alike.commit name h

theorem optional (h : Blind inner rule) : Blind inner rule.optional := by
  intro tokens tokens' htokens
  generalize rule.optional.run inner tokens = x, rule.optional.run inner tokens' = x',
    Alike.optional h _ _ htokens = hx
  cases hx with
  | ok hab hrest =>
    refine .ok ?_ hrest
    cases hab with
    | some heq => rw [heq]
    | none => rfl
  | error herror hrest => exact .error herror hrest

theorem repeatStep {step : List Token → Outcome (Option α)}
    (h : ∀ tokens tokens', kinds tokens = kinds tokens' → (step tokens).Alike Eq (step tokens'))
    (turns : Nat) : ∀ tokens tokens', kinds tokens = kinds tokens' →
      (Rule.repeatStep step turns tokens).Alike Eq (Rule.repeatStep step turns tokens') := by
  induction turns with
  | zero => exact fun _ _ htokens => .ok rfl htokens
  | succ turns ih =>
    intro tokens tokens' htokens
    rw [Rule.repeatStep, Rule.repeatStep]
    generalize step tokens = x, step tokens' = x', h _ _ htokens = hx
    cases hx with
    | error herror hrest => exact .error herror hrest
    | @ok a b rest rest' heq hrest =>
      obtain rfl := heq
      cases a with
      | none => exact .ok rfl hrest
      | some a =>
        dsimp only
        generalize Rule.repeatStep step turns rest = y, Rule.repeatStep step turns rest' = y',
          ih _ _ hrest = hy
        cases hy with
        | ok heq hrest' => exact .ok (congrArg (a :: ·) heq) hrest'
        | error herror hrest' => exact .error herror hrest'

theorem repeated {rule : Rule (Option α)} (h : Blind inner rule) : Blind inner rule.repeated := by
  intro tokens tokens' htokens
  have hlength : tokens.length = tokens'.length := by
    rw [← length_kinds, htokens, length_kinds]
  rw [run, run, hlength]
  exact repeatStep h _ _ _ htokens

end Blind

/-! ## Single tokens -/

section
variable {inner : Inner}

theorem alike_ofKind (expected : String) (kind : TokenKind) :
    Alike inner (fun t t' => t.kind = t'.kind)
      (.token expected fun t => if t.kind = kind then some t else none)
      (.token expected fun t => if t.kind = kind then some t else none) := by
  refine .token expected fun t t' hkind => ?_
  rw [hkind]
  split
  · exact .some hkind
  · exact .none

theorem alike_symbol (s : Symbol) :
    Alike inner (fun t t' => t.kind = t'.kind) (symbol s) (symbol s) :=
  alike_ofKind _ _

theorem alike_newline : Alike inner (fun t t' => t.kind = t'.kind) newline newline :=
  alike_ofKind _ _

theorem alike_spannedName :
    Alike inner (fun x y : String × Text.Span => x.1 = y.1) spannedName spannedName := by
  refine .token _ fun t t' hkind => ?_
  rw [hkind]
  split
  · exact .some rfl
  · exact .none

theorem blind_name : Blind inner name :=
  alike_spannedName.bind fun _ _ hname => .pure hname

theorem blind_number : Blind inner number := by
  refine Alike.token _ fun t t' hkind => ?_
  rw [hkind]
  split
  · exact .some rfl
  · exact .none

theorem blind_var : Blind inner var :=
  blind_name.bind fun _ => .pure _

/-! ## Operators and chains -/

theorem blind_operator (s : Symbol) (op : Operator) : Blind inner (operator s op) :=
  (alike_symbol s).bind fun _ _ _ => .pure rfl

theorem blind_operatorRule (k : Nat) : Blind inner (operatorRule k) := by
  unfold operatorRule
  split
  · exact (blind_operator _ _).orElse (blind_operator _ _)
  · exact (blind_operator _ _).orElse ((blind_operator _ _).orElse (blind_operator _ _))
  · exact blind_operator _ _

theorem blind_chain {operand : Rule Expr} {ops : Rule Operator} (what : String)
    (hoperand : Blind inner operand) (hops : Blind inner ops) :
    Blind inner (chain operand ops what) := by
  have hlink : Blind inner (chainLink operand ops what) :=
    hops.bindOptional (.pure rfl) fun op _ heq => heq ▸
      (hoperand.commit what).bind fun _ => .pure _
  exact hoperand.bind fun first => hlink.repeated.bind fun rest => .pure _

/-! ## Heads of definitions and lists of statements -/

theorem blind_params : Blind inner params := by
  have hparam : Blind inner param := blind_name.bind fun _ => .pure _
  have hnext : Blind inner nextParam :=
    (alike_symbol .comma).bindOptional (.pure rfl) fun _ _ _ => hparam.bind fun _ => .pure _
  exact hparam.bind fun _ => hnext.repeated.bind fun _ => .pure _

theorem blind_statementList {statement : Rule Stmt} (h : Blind inner statement) :
    Blind inner (statementList statement) := by
  have hnext : Blind inner (nextStatement statement) :=
    alike_newline.bindOptional (.pure rfl) fun _ _ _ => h.optional
  exact h.optional.bind fun
    | none => .pure _
    | some _ => hnext.repeated.bind fun _ => .pure _

/-- The head of a definition tells where its name stands. -/
theorem alike_defineHead :
    Alike inner (fun x y : (String × Text.Span) × List Param => x.1.1 = y.1.1 ∧ x.2 = y.2)
      defineHead defineHead :=
  (alike_spannedName.skip (alike_symbol _)).bind fun _ _ hname =>
    Alike.bind blind_params.optional fun _ _ hparams =>
      (alike_symbol _).bind fun _ _ _ => (alike_symbol _).bind fun _ _ _ =>
        .pure ⟨hname, congrArg (Option.getD · []) hparams⟩

theorem alike_ownName (name : String) (span span' : Text.Span) :
    Alike inner Eq (ownName name span) (ownName name span') := by
  unfold ownName
  split
  · exact .fail rfl
  · exact Alike.pure rfl

end

/-! ## Expressions -/

section
variable {inner : Inner} (hinner : ∀ phrase, Blind inner (.inner phrase))
include hinner

theorem blind_arguments : Blind inner arguments := by
  have hinnerExpression : Blind inner innerExpression := hinner .expression
  have hnext : Blind inner nextArgument :=
    (alike_symbol .comma).bindOptional (.pure rfl) fun _ _ _ =>
      (hinnerExpression.commit _).bind fun _ => .pure _
  exact hinnerExpression.bind fun _ => hnext.repeated.bind fun _ => .pure _

theorem blind_call : Blind inner call := by
  have hname : Blind inner (name.skip (symbol .openParen)) := blind_name.skip (alike_symbol _)
  exact hname.bind fun _ => (blind_arguments hinner).optional.bind fun _ =>
    (alike_symbol .closeParen).bind fun _ _ _ => .pure rfl

theorem blind_value : Blind inner value := by
  have hinnerExpression : Blind inner innerExpression := hinner .expression
  have hgrouped : Blind inner grouped :=
    ((alike_symbol _).skipLeft hinnerExpression).skip (alike_symbol _)
  have hoperand : Blind inner ((symbol .minus).skipLeft innerExpression) :=
    (alike_symbol _).skipLeft hinnerExpression
  have hnegated : Blind inner negated := hoperand.bind fun _ => .pure _
  have hjuxtaposed : Blind inner juxtaposed :=
    blind_number.bind fun _ => blind_name.bind fun _ => .pure _
  exact .label _ <| hgrouped.orElse <| hnegated.orElse <| hjuxtaposed.orElse <|
    (blind_call hinner).orElse <| blind_var.orElse blind_number

theorem blind_expression : Blind inner expression := by
  have hpower : Blind inner power := blind_chain _ (blind_value hinner) (blind_operatorRule 3)
  have hterm : Blind inner term := blind_chain _ hpower (blind_operatorRule 2)
  exact blind_chain _ hterm (blind_operatorRule 1)

/-! ## Statements -/

theorem blind_assign : Blind inner assign := by
  have hname : Blind inner (name.skip (symbol .equals)) := blind_name.skip (alike_symbol _)
  exact hname.bind fun _ => (blind_expression hinner).bind fun _ => .pure _

theorem blind_define : Blind inner define := by
  have hinnerStatement : Blind inner innerStatement := hinner .statement
  have hbraced : Blind inner bracedBody :=
    (((alike_symbol _).skipLeft alike_newline).skipLeft (blind_statementList hinnerStatement)).skip
      (alike_symbol _)
  have hinline : Blind inner inlineBody :=
    (hinnerStatement.commit _).bind fun _ => .pure _
  have hbody : Blind inner (bracedBody.orElse inlineBody) := hbraced.orElse hinline
  refine alike_defineHead.bind ?_
  -- the two names are the same and may stand in different places
  rintro ⟨⟨name, span⟩, params⟩ ⟨⟨_, span'⟩, _⟩ ⟨rfl, rfl⟩
  exact (alike_ownName name span span').bind fun _ _ _ => hbody.bind fun _ => .pure _

theorem blind_statement : Blind inner statement := by
  have hexpression : Blind inner expressionStatement :=
    (blind_expression hinner).bind fun _ => .pure _
  exact (blind_define hinner).orElse ((blind_assign hinner).orElse hexpression)

end

/-! ## Whole token lists -/

/-- Inner phrases, by induction on how deep they nest. -/
theorem blind_inner : ∀ (depth : Nat) (phrase : Phrase), Blind (innerTo depth) (.inner phrase)
  | 0, _ => fun _ _ htokens => .error (SyntaxError.unplaced_unexpected _ htokens) htokens
  | depth + 1, .expression => blind_expression (blind_inner depth)
  | depth + 1, .statement => blind_statement (blind_inner depth)

theorem readAll_alike {tokens tokens' : List Token} (h : kinds tokens = kinds tokens') :
    (readAll tokens).Alike Eq (readAll tokens') := by
  have hlength : tokens.length = tokens'.length := by
    rw [← length_kinds, h, length_kinds]
  have hread : (stmts.read tokens).Alike Eq (stmts.read tokens') := by
    unfold read
    rw [hlength]
    exact blind_statementList (blind_statement (blind_inner _)) _ _ h
  unfold readAll
  generalize stmts.read tokens = x, stmts.read tokens' = x' at hread
  cases hread with
  | error herror hrest => exact .error herror hrest
  | @ok a b rest rest' heq hrest =>
    obtain rfl := heq
    cases rest with
    | nil =>
      obtain rfl := List.map_eq_nil_iff.mp hrest.symm
      exact .ok rfl rfl
    | cons t ts =>
      obtain ⟨t', ts', rfl, -, -⟩ := kinds_eq_cons.mp hrest.symm
      exact .error (SyntaxError.unplaced_unexpected _ hrest) hrest

end Rule

/-- Token lists of the same kinds are the same program, or fail with errors that differ in their
place only. -/
theorem Program.ofTokens_kinds {tokens tokens' : List Token} (h : kinds tokens = kinds tokens') :
    (ofTokens tokens).mapError SyntaxError.unplaced =
      (ofTokens tokens').mapError SyntaxError.unplaced := by
  unfold ofTokens
  generalize Rule.readAll tokens = x, Rule.readAll tokens' = x', Rule.readAll_alike h = hx
  cases hx with
  | ok heq => rw [heq]
  | error herror => exact congrArg Except.error herror

end Abacus
