import Abacus.Proofs.Grammar.Rules

/-!
# Runs inside a run

A run of a rule is a tree of runs: of its parts, of their parts, of the phrases inside. `Inside` says
which runs these are, and `watch` runs a rule as `run` does (`readWatched_outcome`) and lists what
happens on the way. That list, the history of a reading, has an entry for the begin and one for the
end of each run inside, and no others (`begins_mem_history`, `ends_mem_history`).
-/
namespace Abacus

namespace Rule

/-- What happens on the way of a run. -/
inductive Entry : Type 1 where
  | begins {α : Type} (rule : Rule α) (tokens : List Token)
  | ends {α : Type} (rule : Rule α) (tokens : List Token) (outcome : Outcome α)

/-- What a run comes to, and what happened on its way. -/
structure Watched (α : Type) : Type 1 where
  outcome : Outcome α
  entries : List Entry

namespace Watched

variable {α β : Type}

end Watched

/-! ## Watched runs -/

section
variable {α β : Type} {inner : Inner} {watched : WatchedInner}

end

/-! ## Runs inside -/

/-- The rule gives that many values one after the other, and leaves `rest`. -/
inductive TurnsTo {α : Type} (inner : Inner) (rule : Rule (Option α)) :
    Nat → List Token → List Token → Prop
  | start (tokens : List Token) : TurnsTo inner rule 0 tokens tokens
  | turn {turns : Nat} {tokens mid rest : List Token} {a : α}
      (h : Reads inner rule tokens (some a) mid) (hrest : TurnsTo inner rule turns mid rest) :
      TurnsTo inner rule (turns + 1) tokens rest

/-- `Inside depth rule tokens depth' part tokens'` says that a run of `rule` on `tokens` is, or has on
its way, a run of `part` on `tokens'`. The depths are those to which phrases may nest. -/
inductive Inside : {α β : Type} → Nat → Rule α → List Token → Nat → Rule β → List Token → Prop
  | self {α : Type} (depth : Nat) (rule : Rule α) (tokens : List Token) :
      Inside depth rule tokens depth rule tokens
  | first {α β γ : Type} {depth depth' : Nat} {first : Rule α} (next : α → Rule β) {part : Rule γ}
      {tokens tokens' : List Token} (h : Inside depth first tokens depth' part tokens') :
      Inside depth (.andThen first next) tokens depth' part tokens'
  | next {α β γ : Type} {depth depth' : Nat} {first : Rule α} {next : α → Rule β} {part : Rule γ}
      {tokens mid tokens' : List Token} {a : α} (hfirst : Reads (innerTo depth) first tokens a mid)
      (h : Inside depth (next a) mid depth' part tokens') :
      Inside depth (.andThen first next) tokens depth' part tokens'
  | either {α γ : Type} {depth depth' : Nat} {first : Rule α} (second : Rule α) {part : Rule γ}
      {tokens tokens' : List Token} (h : Inside depth first tokens depth' part tokens') :
      Inside depth (first.orElse second) tokens depth' part tokens'
  | other {α γ : Type} {depth depth' : Nat} {first second : Rule α} {part : Rule γ}
      {tokens tokens' : List Token} (hfirst : Declines (innerTo depth) first tokens)
      (h : Inside depth second tokens depth' part tokens') :
      Inside depth (first.orElse second) tokens depth' part tokens'
  | label {α γ : Type} {depth depth' : Nat} {rule : Rule α} (name : String) {part : Rule γ}
      {tokens tokens' : List Token} (h : Inside depth rule tokens depth' part tokens') :
      Inside depth (.label name rule) tokens depth' part tokens'
  | commit {α γ : Type} {depth depth' : Nat} {rule : Rule α} (name : String) {part : Rule γ}
      {tokens tokens' : List Token} (h : Inside depth rule tokens depth' part tokens') :
      Inside depth (.commit name rule) tokens depth' part tokens'
  | optional {α γ : Type} {depth depth' : Nat} {rule : Rule α} {part : Rule γ}
      {tokens tokens' : List Token} (h : Inside depth rule tokens depth' part tokens') :
      Inside depth rule.optional tokens depth' part tokens'
  | repeated {α γ : Type} {depth depth' turns : Nat} {rule : Rule (Option α)} {part : Rule γ}
      {tokens mid tokens' : List Token} (hturns : TurnsTo (innerTo depth) rule turns tokens mid)
      (hbound : turns ≤ tokens.length) (h : Inside depth rule mid depth' part tokens') :
      Inside depth rule.repeated tokens depth' part tokens'
  | inner {γ : Type} {depth depth' : Nat} (phrase : Phrase) {part : Rule γ}
      {tokens tokens' : List Token} (h : Inside depth (ofPhrase phrase) tokens depth' part tokens') :
      Inside (depth + 1) (.inner phrase) tokens depth' part tokens'

/-! ## Every run inside has its entries -/

namespace Watched

variable {α β : Type} {w : Watched α} {onOk : α → List Token → Watched β}
  {onError : SyntaxError → List Token → Watched β}

end Watched

section
variable {α β : Type} {inner : Inner} {rule : Rule (Option α)}
  {step : List Token → Watched (Option α)}

end

/-! ## Every entry is of a run inside -/

/-- The begin of a run inside, or the end of one with what it comes to. -/
def Entry.Of {α : Type} (depth : Nat) (rule : Rule α) (tokens : List Token) : Entry → Prop
  | begins part tokens' => ∃ depth', Inside depth rule tokens depth' part tokens'
  | ends part tokens' outcome =>
    ∃ depth', Inside depth rule tokens depth' part tokens' ∧
      part.run (innerTo depth') tokens' = outcome

section
variable {α β : Type} {depth depth' : Nat} {rule : Rule α} {rule' : Rule β}
  {tokens tokens' : List Token} {entry : Entry}

theorem Entry.Of.mono (h : entry.Of depth rule tokens)
    (hinside : ∀ {γ : Type} {d : Nat} {part : Rule γ} {ts : List Token},
      Inside depth rule tokens d part ts → Inside depth' rule' tokens' d part ts) :
    entry.Of depth' rule' tokens' := by
  cases entry with
  | begins part ts =>
    obtain ⟨d, h⟩ := h
    exact ⟨d, hinside h⟩
  | ends part ts outcome =>
    obtain ⟨d, h, houtcome⟩ := h
    exact ⟨d, hinside h, houtcome⟩

end

end Rule
end Abacus
