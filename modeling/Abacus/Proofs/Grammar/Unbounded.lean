import Abacus.Proofs.Grammar.References
import Abacus.Proofs.Grammar.Rules

/-!
# Running productions without bounds

`Production.Comes` says what running a production comes to, with no bound on turns or on nesting: a
reference runs the production that it names, and a repetition goes on as long as it gives something. There
need not be an outcome, but there is at most one (`Comes.unique`). `Production.Enters` says which
references are run on the way, and on which tokens.

The bounds that `Rule.run` has are never met where every repetition takes a token in each turn
(`Production.Turning`) and the references that are run come to what their rules come to: then the rule and
its production come to the same (`comes_resolve`).
-/
namespace Abacus

/-! ## Outcomes of a part -/

namespace Outcome

variable {α : Type}

/-- A failure behind which another rule may be tried. -/
def isPlain (o : Outcome α) : Bool :=
  match o.result with
  | .ok _ => false
  | .error e => !e.committed

/-- What comes of one token. -/
def ofToken (expected : String) (accept : Token → Option α) : List Token → Outcome α
  | [] => { result := .error (.unexpected expected []), rest := [] }
  | t :: tokens =>
    match accept t with
    | some value => { result := .ok value, rest := tokens }
    | none => { result := .error (.unexpected expected (t :: tokens)), rest := t :: tokens }

def relabel (name : String) (o : Outcome α) : Outcome α :=
  { o with result := o.result.mapError (SyntaxError.relabel name) }

/-- What a run from these tokens comes to that must not fail. -/
def commit (what : String) (tokens : List Token) (o : Outcome α) : Outcome α :=
  if o.isPlain then { result := .error (SyntaxError.unexpected what tokens).commit, rest := tokens }
  else o

/-- What a run from these tokens comes to that may fail. -/
def optional (tokens : List Token) (o : Outcome α) : Outcome (Option α) :=
  if o.isPlain then { result := .ok none, rest := tokens }
  else { result := o.result.map some, rest := o.rest }

def cons (a : α) (o : Outcome (List α)) : Outcome (List α) :=
  { o with result := o.result.map (a :: ·) }

end Outcome

namespace Production

/-- What running a production on tokens comes to. -/
inductive Comes : {α : Type} → Production α → List Token → Outcome α → Prop
  | succeed {α : Type} (value : α) (tokens : List Token) :
      Comes (.succeed value) tokens { result := .ok value, rest := tokens }
  | fail {α : Type} (error : SyntaxError) (tokens : List Token) :
      Comes (.fail error : Production α) tokens { result := .error error, rest := tokens }
  | token {α : Type} (expected : String) (accept : Token → Option α) (tokens : List Token) :
      Comes (.token expected accept) tokens (.ofToken expected accept tokens)
  | andThen {α β : Type} {first : Production α} {next : α → Production β} {a : α}
      {tokens mid : List Token} {o : Outcome β}
      (hfirst : Comes first tokens { result := .ok a, rest := mid }) (hnext : Comes (next a) mid o) :
      Comes (.andThen first next) tokens o
  | failed {α β : Type} {first : Production α} (next : α → Production β) {e : SyntaxError}
      {tokens rest : List Token} (hfirst : Comes first tokens { result := .error e, rest }) :
      Comes (.andThen first next) tokens { result := .error e, rest }
  | either {α : Type} {first : Production α} (second : Production α) {tokens : List Token}
      {o : Outcome α} (hfirst : Comes first tokens o) (h : o.isPlain = false) :
      Comes (first.orElse second) tokens o
  | other {α : Type} {first second : Production α} {tokens : List Token} {x o : Outcome α}
      (hfirst : Comes first tokens x) (h : x.isPlain = true) (hsecond : Comes second tokens o) :
      Comes (first.orElse second) tokens o
  | label {α : Type} {rule : Production α} {tokens : List Token} {o : Outcome α} (name : String)
      (h : Comes rule tokens o) : Comes (.label name rule) tokens (o.relabel name)
  | commit {α : Type} {rule : Production α} {tokens : List Token} {o : Outcome α} (what : String)
      (h : Comes rule tokens o) : Comes (.commit what rule) tokens (o.commit what tokens)
  | optional {α : Type} {rule : Production α} {tokens : List Token} {o : Outcome α}
      (h : Comes rule tokens o) : Comes rule.optional tokens (o.optional tokens)
  | turn {α : Type} {rule : Production (Option α)} {a : α} {tokens mid : List Token}
      {o : Outcome (List α)} (h : Comes rule tokens { result := .ok (some a), rest := mid })
      (hrest : Comes rule.repeated mid o) : Comes rule.repeated tokens (o.cons a)
  | stop {α : Type} {rule : Production (Option α)} {tokens rest : List Token}
      (h : Comes rule tokens { result := .ok none, rest }) :
      Comes rule.repeated tokens { result := .ok [], rest }
  | broken {α : Type} {rule : Production (Option α)} {e : SyntaxError} {tokens rest : List Token}
      (h : Comes rule tokens { result := .error e, rest }) :
      Comes rule.repeated tokens { result := .error e, rest }
  | refer {n : Nonterminal} {tokens : List Token} {o : Outcome n.Tree}
      (h : Comes n.production tokens o) : Comes (.refer n) tokens o

/-- What running a production comes to, by its parts. -/
def ComesByParts {α : Type} : Production α → List Token → Outcome α → Prop
  | .succeed value, tokens, o => o = { result := .ok value, rest := tokens }
  | .fail error, tokens, o => o = { result := .error error, rest := tokens }
  | .token expected accept, tokens, o => o = .ofToken expected accept tokens
  | .andThen first next, tokens, o =>
    (∃ a mid, Comes first tokens { result := .ok a, rest := mid } ∧ Comes (next a) mid o) ∨
      ∃ e rest, Comes first tokens { result := .error e, rest } ∧ o = { result := .error e, rest }
  | .orElse first second, tokens, o =>
    (Comes first tokens o ∧ o.isPlain = false) ∨
      ∃ x, Comes first tokens x ∧ x.isPlain = true ∧ Comes second tokens o
  | .label name rule, tokens, o => ∃ x, Comes rule tokens x ∧ o = x.relabel name
  | .commit what rule, tokens, o => ∃ x, Comes rule tokens x ∧ o = x.commit what tokens
  | .optional rule, tokens, o => ∃ x, Comes rule tokens x ∧ o = x.optional tokens
  | .repeated rule, tokens, o =>
    (∃ a mid x, Comes rule tokens { result := .ok (some a), rest := mid } ∧
        Comes rule.repeated mid x ∧ o = x.cons a) ∨
      (∃ rest, Comes rule tokens { result := .ok none, rest } ∧ o = { result := .ok [], rest }) ∨
        ∃ e rest, Comes rule tokens { result := .error e, rest } ∧ o = { result := .error e, rest }
  | .refer n, tokens, o => Comes n.production tokens o

variable {α β : Type} {tokens tokens' rest : List Token} {n : Nonterminal}

theorem Comes.byParts {p : Production α} {o : Outcome α} (h : Comes p tokens o) :
    p.ComesByParts tokens o := by
  cases h with
  | succeed => rfl
  | fail => rfl
  | token => rfl
  | andThen hfirst hnext => exact .inl ⟨_, _, hfirst, hnext⟩
  | failed _ hfirst => exact .inr ⟨_, _, hfirst, rfl⟩
  | either _ hfirst h => exact .inl ⟨hfirst, h⟩
  | other hfirst h hsecond => exact .inr ⟨_, hfirst, h, hsecond⟩
  | label _ h => exact ⟨_, h, rfl⟩
  | commit _ h => exact ⟨_, h, rfl⟩
  | optional h => exact ⟨_, h, rfl⟩
  | turn h hrest => exact .inl ⟨_, _, _, h, hrest, rfl⟩
  | stop h => exact .inr (.inl ⟨_, h, rfl⟩)
  | broken h => exact .inr (.inr ⟨_, _, h, rfl⟩)
  | refer h => exact h

/-- There is at most one outcome. -/
theorem Comes.unique {p : Production α} {o o' : Outcome α} (h : Comes p tokens o)
    (h' : Comes p tokens o') : o = o' := by
  induction h with
  | succeed value tokens => exact h'.byParts.symm
  | fail error tokens => exact h'.byParts.symm
  | token expected accept tokens => exact h'.byParts.symm
  | andThen hfirst hnext ihfirst ihnext =>
    rcases h'.byParts with ⟨a, mid, hfirst', hnext'⟩ | ⟨e, rest, hfirst', -⟩
    · cases ihfirst hfirst'
      exact ihnext hnext'
    · cases ihfirst hfirst'
  | failed next hfirst ih =>
    rcases h'.byParts with ⟨a, mid, hfirst', -⟩ | ⟨e, rest, hfirst', rfl⟩
    · cases ih hfirst'
    · cases ih hfirst'
      rfl
  | either second hfirst hplain ih =>
    rcases h'.byParts with ⟨hfirst', -⟩ | ⟨x, hfirst', hplain', -⟩
    · exact ih hfirst'
    · rw [← ih hfirst', hplain] at hplain'
      cases hplain'
  | other hfirst hplain hsecond ihfirst ihsecond =>
    rcases h'.byParts with ⟨hfirst', hplain'⟩ | ⟨x, -, -, hsecond'⟩
    · rw [← ihfirst hfirst', hplain] at hplain'
      cases hplain'
    · exact ihsecond hsecond'
  | label name h ih =>
    obtain ⟨x, hx, rfl⟩ := h'.byParts
    rw [ih hx]
  | commit what h ih =>
    obtain ⟨x, hx, rfl⟩ := h'.byParts
    rw [ih hx]
  | optional h ih =>
    obtain ⟨x, hx, rfl⟩ := h'.byParts
    rw [ih hx]
  | turn h hrest ih ihrest =>
    rcases h'.byParts with ⟨a, mid, x, hturn, hmore, rfl⟩ | ⟨rest, hturn, -⟩ | ⟨e, rest, hturn, -⟩
    · cases ih hturn
      rw [ihrest hmore]
    · cases ih hturn
    · cases ih hturn
  | stop h ih =>
    rcases h'.byParts with ⟨a, mid, x, hturn, -, -⟩ | ⟨rest, hturn, rfl⟩ | ⟨e, rest, hturn, -⟩
    · cases ih hturn
    · cases ih hturn
      rfl
    · cases ih hturn
  | broken h ih =>
    rcases h'.byParts with ⟨a, mid, x, hturn, -, -⟩ | ⟨rest, hturn, -⟩ | ⟨e, rest, hturn, rfl⟩
    · cases ih hturn
    · cases ih hturn
    · cases ih hturn
      rfl
  | refer h ih => exact ih h'.byParts

/-! ## Tokens are taken from the front -/

theorem suffix_ofToken (expected : String) (accept : Token → Option α) (tokens : List Token) :
    (Outcome.ofToken expected accept tokens).rest <:+ tokens := by
  cases tokens with
  | nil => exact List.suffix_refl []
  | cons t ts =>
    rw [Outcome.ofToken]
    cases accept t with
    | none => exact List.suffix_refl _
    | some a => exact List.suffix_cons t ts

theorem Comes.suffix {p : Production α} {o : Outcome α} (h : Comes p tokens o) :
    o.rest <:+ tokens := by
  induction h with
  | succeed value tokens => exact List.suffix_refl tokens
  | fail error tokens => exact List.suffix_refl tokens
  | token expected accept tokens => exact suffix_ofToken expected accept tokens
  | andThen hfirst hnext ihfirst ihnext => exact ihnext.trans ihfirst
  | failed next hfirst ih => exact ih
  | either second hfirst hplain ih => exact ih
  | other hfirst hplain hsecond ihfirst ihsecond => exact ihsecond
  | label name h ih => exact ih
  | commit what h ih =>
    rw [Outcome.commit]
    split
    · exact List.suffix_refl _
    · exact ih
  | optional h ih =>
    rw [Outcome.optional]
    split
    · exact List.suffix_refl _
    · exact ih
  | turn h hrest ih ihrest => exact ihrest.trans ih
  | stop h ih => exact ih
  | broken h ih => exact ih
  | refer h ih => exact ih

/-! ## References that are run -/

/-- Some turns of a repetition lead from the tokens to others. -/
inductive TurnsTo (rule : Production (Option α)) : List Token → List Token → Prop
  | start (tokens : List Token) : TurnsTo rule tokens tokens
  | turn {a : α} {tokens mid rest : List Token}
      (h : Comes rule tokens { result := .ok (some a), rest := mid })
      (hrest : TurnsTo rule mid rest) : TurnsTo rule tokens rest

/-- Running the production on tokens runs the reference to `n` on the tokens `tokens'`, not counting
what is run by references. -/
def Enters {α : Type} : Production α → List Token → Nonterminal → List Token → Prop
  | .succeed _, _, _, _ => False
  | .fail _, _, _, _ => False
  | .token _ _, _, _, _ => False
  | .andThen first next, tokens, n, tokens' =>
    first.Enters tokens n tokens' ∨
      ∃ a mid, Comes first tokens { result := .ok a, rest := mid } ∧ (next a).Enters mid n tokens'
  | .orElse first second, tokens, n, tokens' =>
    first.Enters tokens n tokens' ∨
      ∃ x, Comes first tokens x ∧ x.isPlain = true ∧ second.Enters tokens n tokens'
  | .label _ rule, tokens, n, tokens' => rule.Enters tokens n tokens'
  | .commit _ rule, tokens, n, tokens' => rule.Enters tokens n tokens'
  | .optional rule, tokens, n, tokens' => rule.Enters tokens n tokens'
  | .repeated rule, tokens, n, tokens' => ∃ mid, TurnsTo rule tokens mid ∧ rule.Enters mid n tokens'
  | .refer m, tokens, n, tokens' => n = m ∧ tokens' = tokens

theorem TurnsTo.suffix {rule : Production (Option α)} (h : TurnsTo rule tokens rest) :
    rest <:+ tokens := by
  induction h with
  | start tokens => exact List.suffix_refl tokens
  | turn h hrest ih => exact ih.trans h.suffix

theorem Enters.suffix {p : Production α} (h : p.Enters tokens n tokens') : tokens' <:+ tokens := by
  induction p generalizing tokens with
  | succeed value => cases h
  | fail error => cases h
  | token expected accept => cases h
  | andThen first next ihfirst ihnext =>
    rcases h with h | ⟨a, mid, hfirst, h⟩
    · exact ihfirst h
    · exact (ihnext a h).trans hfirst.suffix
  | orElse first second ihfirst ihsecond =>
    rcases h with h | ⟨x, -, -, h⟩
    · exact ihfirst h
    · exact ihsecond h
  | label name rule ih => exact ih h
  | commit what rule ih => exact ih h
  | optional rule ih => exact ih h
  | repeated rule ih =>
    obtain ⟨mid, hturns, h⟩ := h
    exact (ih h).trans hturns.suffix
  | refer m =>
    obtain ⟨-, rfl⟩ := h
    exact List.suffix_refl _

/-! ## The bounds are never met -/

/-- Each turn of a repetition takes a token, but for the last one if it takes nothing. -/
def TakesTurns (rule : Production (Option α)) : Prop :=
  ∀ tokens o, Comes rule tokens o →
    o = { result := .ok none, rest := tokens } ∨ o.rest.length < tokens.length

/-- The turns of all repetitions take tokens. -/
def Turning {α : Type} : Production α → Prop
  | .succeed _ => True
  | .fail _ => True
  | .token _ _ => True
  | .andThen first next => first.Turning ∧ ∀ a, (next a).Turning
  | .orElse first second => first.Turning ∧ second.Turning
  | .label _ rule => rule.Turning
  | .commit _ rule => rule.Turning
  | .optional rule => rule.Turning
  | .repeated rule => rule.Turning ∧ rule.TakesTurns
  | .refer _ => True

section
variable {inner : Rule.Inner} {rule first second : Rule α}

theorem run_token (expected : String) (accept : Token → Option α) :
    (Rule.token expected accept).run inner tokens = .ofToken expected accept tokens := by
  cases tokens <;> rfl

theorem run_orElse : (first.orElse second).run inner tokens =
    if (first.run inner tokens).isPlain then second.run inner tokens else first.run inner tokens := by
  rw [Rule.run]
  obtain ⟨result, rest⟩ := first.run inner tokens
  cases result with
  | ok a => rfl
  | error e => cases h : e.committed <;> simp [Outcome.isPlain, h]

theorem run_label (name : String) :
    (Rule.label name rule).run inner tokens = (rule.run inner tokens).relabel name := by
  rw [Rule.run]
  obtain ⟨result, rest⟩ := rule.run inner tokens
  cases result <;> rfl

theorem run_commit (what : String) :
    (Rule.commit what rule).run inner tokens = (rule.run inner tokens).commit what tokens := by
  rw [Rule.run]
  obtain ⟨result, rest⟩ := rule.run inner tokens
  cases result with
  | ok a => rfl
  | error e => cases h : e.committed <;> simp [Outcome.commit, Outcome.isPlain, h]

theorem run_optional :
    rule.optional.run inner tokens = (rule.run inner tokens).optional tokens := by
  rw [Rule.run]
  obtain ⟨result, rest⟩ := rule.run inner tokens
  cases result with
  | ok a => rfl
  | error e => cases h : e.committed <;> simp [Outcome.optional, Outcome.isPlain, h, Except.map]

end

theorem comes_repeatStep {rule : Production (Option α)} (hturns : rule.TakesTurns)
    {step : List Token → Outcome (Option α)} {turns : Nat}
    (h : ∀ mid, TurnsTo rule tokens mid → Comes rule mid (step mid)) (hlength : tokens.length < turns) :
    Comes rule.repeated tokens (Rule.repeatStep step turns tokens) := by
  induction turns generalizing tokens with
  | zero => omega
  | succ turns ih =>
    have hstep := h tokens (.start tokens)
    have hturn := hturns _ _ hstep
    rw [Rule.repeatStep]
    generalize step tokens = x at hstep hturn ⊢
    obtain ⟨result, mid⟩ := x
    cases result with
    | error e => exact .broken hstep
    | ok choice =>
      cases choice with
      | none => exact .stop hstep
      | some a =>
        have hlt : mid.length < tokens.length := hturn.resolve_left fun heq => by cases heq
        have hrest := ih (fun mid' hmid => h mid' (.turn hstep hmid)) (by omega)
        dsimp only
        generalize Rule.repeatStep step turns mid = x at hrest ⊢
        obtain ⟨result, rest⟩ := x
        cases result with
        | error e => exact .turn hstep hrest
        | ok as => exact .turn hstep hrest

/-- A rule comes to what its production comes to, if that holds of the references that are run. -/
theorem comes_resolve {inner : Rule.Inner} {rules : (n : Nonterminal) → Rule n.Tree}
    (p : Production α) (hturning : p.Turning) {tokens : List Token}
    (h : ∀ n tokens', p.Enters tokens n tokens' →
      Comes n.production tokens' ((rules n).run inner tokens')) :
    Comes p tokens ((p.resolve rules).run inner tokens) := by
  induction p generalizing tokens with
  | succeed value => exact .succeed value tokens
  | fail error => exact .fail error tokens
  | token expected accept =>
    rw [resolve, run_token]
    exact .token expected accept tokens
  | andThen first next ihfirst ihnext =>
    have hfirst := ihfirst hturning.1 fun n tokens' hn => h n tokens' (.inl hn)
    rw [resolve, Rule.run]
    generalize (first.resolve rules).run inner tokens = x at hfirst ⊢
    obtain ⟨result, mid⟩ := x
    cases result with
    | error e => exact .failed next hfirst
    | ok a =>
      exact .andThen hfirst (ihnext a (hturning.2 a) fun n tokens' hn =>
        h n tokens' (.inr ⟨a, mid, hfirst, hn⟩))
  | orElse first second ihfirst ihsecond =>
    have hfirst := ihfirst hturning.1 fun n tokens' hn => h n tokens' (.inl hn)
    rw [resolve, run_orElse]
    generalize (first.resolve rules).run inner tokens = x at hfirst ⊢
    split
    next hplain =>
      exact .other hfirst hplain (ihsecond hturning.2 fun n tokens' hn =>
        h n tokens' (.inr ⟨x, hfirst, hplain, hn⟩))
    next hplain => exact .either _ hfirst (Bool.eq_false_iff.mpr hplain)
  | label name rule ih =>
    rw [resolve, run_label]
    exact .label name (ih hturning h)
  | commit what rule ih =>
    rw [resolve, run_commit]
    exact .commit what (ih hturning h)
  | optional rule ih =>
    rw [resolve, run_optional]
    exact .optional (ih hturning h)
  | repeated rule ih =>
    refine comes_repeatStep hturning.2 (fun mid hmid => ?_) (Nat.lt_succ_self _)
    exact ih hturning.1 fun n tokens' hn => h n tokens' ⟨mid, hmid, hn⟩
  | refer n => exact .refer (h n tokens ⟨rfl, rfl⟩)

end Production
end Abacus
