import Abacus.Grammar.Reader

/-!
# Laws of grammar rules

What running a rule comes to, one law for each way to build a rule. A run can end in three ways: the
rule reads something (`Reads`), it does not match and another one may be tried (`Declines`), or it
finds the text malformed. `Reads` and `Declines` are all that the laws need to speak of: a choice
goes on only where its first part declines.

`repeated` bounds its turns by the number of tokens. Where every turn takes a token the bound is
never met, and the run is the chain of its turns (`reads_repeated`).
-/
namespace Abacus.Rule

variable {α β : Type} {inner : Inner} {tokens rest : List Token}

attribute [local simp] run

/-- The rule makes `a` of the tokens up to `rest`. -/
def Reads (inner : Inner) (rule : Rule α) (tokens : List Token) (a : α) (rest : List Token) : Prop :=
  rule.run inner tokens = { result := .ok a, rest }

/-- The rule does not match, and another one may be tried. -/
def Declines (inner : Inner) (rule : Rule α) (tokens : List Token) : Prop :=
  ∃ e rest, rule.run inner tokens = { result := .error e, rest } ∧ e.committed = false

theorem Declines.not_reads {rule : Rule α} {a : α} (h : Declines inner rule tokens) :
    ¬ Reads inner rule tokens a rest := by
  obtain ⟨e, rest', hrun, -⟩ := h
  intro hreads
  unfold Reads at hreads
  rw [hrun] at hreads
  cases hreads

/-! ## Values and tokens -/

@[simp] theorem reads_pure {a b : α} :
    Reads inner (pure a) tokens b rest ↔ a = b ∧ tokens = rest := by
  change (⟨.ok a, tokens⟩ : Outcome α) = ⟨.ok b, rest⟩ ↔ _
  simp

@[simp] theorem reads_succeed {a b : α} :
    Reads inner (.succeed a) tokens b rest ↔ a = b ∧ tokens = rest :=
  reads_pure

theorem reads_token {expected : String} {accept : Token → Option α} {a : α} :
    Reads inner (.token expected accept) tokens a rest ↔
      ∃ t, accept t = some a ∧ tokens = t :: rest := by
  unfold Reads
  cases tokens with
  | nil => simp
  | cons t ts =>
    rw [run]
    constructor
    · intro h
      cases haccept : accept t with
      | none => rw [haccept] at h; cases h
      | some b => rw [haccept] at h; cases h; exact ⟨t, haccept, rfl⟩
    · rintro ⟨t', haccept, htokens⟩
      cases htokens
      rw [haccept]

theorem declines_token {expected : String} {accept : Token → Option α} :
    Declines inner (.token expected accept) tokens ↔ ∀ t ts, tokens = t :: ts → accept t = none := by
  unfold Declines
  cases tokens with
  | nil => simp [SyntaxError.unexpected]
  | cons t ts =>
    rw [run]
    cases haccept : accept t with
    | none => simp [haccept, SyntaxError.unexpected]
    | some b => simp [haccept]

/-! ## Sequences -/

section
variable {first : Rule α} {next : α → Rule β}

theorem run_bind : (first >>= next).run inner tokens =
    match first.run inner tokens with
    | { result := .ok a, rest } => (next a).run inner rest
    | { result := .error e, rest } => { result := .error e, rest } := by
  change (Rule.andThen first next).run inner tokens = _
  cases hfirst : first.run inner tokens with
  | mk result mid => cases result <;> rw [run, hfirst]

theorem run_bind_pure (rule : Rule α) : (rule >>= pure).run inner = rule.run inner := by
  funext tokens
  rw [run_bind]
  generalize rule.run inner tokens = outcome
  obtain ⟨result, mid⟩ := outcome
  cases result <;> rfl

theorem reads_bind {b : β} : Reads inner (first >>= next) tokens b rest ↔
    ∃ a mid, Reads inner first tokens a mid ∧ Reads inner (next a) mid b rest := by
  unfold Reads
  rw [run_bind]
  obtain ⟨result, mid⟩ := first.run inner tokens
  cases result with
  | error e => simp
  | ok a =>
    constructor
    · exact fun h => ⟨a, mid, rfl, h⟩
    · rintro ⟨_, _, hfirst, h⟩
      cases hfirst
      exact h

theorem declines_bind : Declines inner (first >>= next) tokens ↔
    Declines inner first tokens ∨
      ∃ a mid, Reads inner first tokens a mid ∧ Declines inner (next a) mid := by
  unfold Declines Reads
  rw [run_bind]
  obtain ⟨result, mid⟩ := first.run inner tokens
  cases result with
  | error e => simp
  | ok a =>
    constructor
    · exact fun h => .inr ⟨a, mid, rfl, h⟩
    · rintro (⟨_, _, hfirst, -⟩ | ⟨_, _, hfirst, h⟩)
      · cases hfirst
      · cases hfirst
        exact h

/-- A rule whose value is only made into another one. -/
theorem reads_map {f : α → β} {b : β} :
    Reads inner (do let a ← first; pure (f a)) tokens b rest ↔
      ∃ a, Reads inner first tokens a rest ∧ b = f a := by
  rw [reads_bind]
  constructor
  · rintro ⟨a, mid, hfirst, hpure⟩
    obtain ⟨rfl, rfl⟩ := reads_pure.mp hpure
    exact ⟨a, hfirst, rfl⟩
  · rintro ⟨a, hfirst, rfl⟩
    exact ⟨a, rest, hfirst, reads_pure.mpr ⟨rfl, rfl⟩⟩

end

/-! ## Choices -/

section
variable {rule first second : Rule α} {a : α} {name : String}

theorem reads_orElse : Reads inner (first.orElse second) tokens a rest ↔
    Reads inner first tokens a rest ∨
      Declines inner first tokens ∧ Reads inner second tokens a rest := by
  unfold Reads Declines
  rw [run]
  obtain ⟨result, mid⟩ := first.run inner tokens
  cases result with
  | ok b => simp
  | error e => cases hcommitted : e.committed <;> simp [hcommitted]

theorem declines_orElse : Declines inner (first.orElse second) tokens ↔
    Declines inner first tokens ∧ Declines inner second tokens := by
  unfold Declines
  rw [run]
  obtain ⟨result, mid⟩ := first.run inner tokens
  cases result with
  | ok b => simp
  | error e => cases hcommitted : e.committed <;> simp [hcommitted]

@[simp] theorem reads_label :
    Reads inner (.label name rule) tokens a rest ↔ Reads inner rule tokens a rest := by
  unfold Reads
  rw [run]
  obtain ⟨result, mid⟩ := rule.run inner tokens
  cases result <;> simp

@[simp] theorem declines_label :
    Declines inner (.label name rule) tokens ↔ Declines inner rule tokens := by
  unfold Declines
  rw [run]
  obtain ⟨result, mid⟩ := rule.run inner tokens
  cases result with
  | ok b => simp
  | error e => cases hcommitted : e.committed <;> simp [SyntaxError.relabel, hcommitted]

@[simp] theorem reads_commit :
    Reads inner (.commit name rule) tokens a rest ↔ Reads inner rule tokens a rest := by
  unfold Reads
  rw [run]
  obtain ⟨result, mid⟩ := rule.run inner tokens
  cases result with
  | ok b => simp
  | error e => cases hcommitted : e.committed <;> simp [hcommitted]

@[simp] theorem reads_optional_some :
    Reads inner rule.optional tokens (some a) rest ↔ Reads inner rule tokens a rest := by
  unfold Reads
  rw [run]
  obtain ⟨result, mid⟩ := rule.run inner tokens
  cases result with
  | ok b => simp
  | error e => cases hcommitted : e.committed <;> simp [hcommitted]

@[simp] theorem reads_optional_none : Reads inner rule.optional tokens none rest ↔
    Declines inner rule tokens ∧ tokens = rest := by
  unfold Reads Declines
  rw [run]
  obtain ⟨result, mid⟩ := rule.run inner tokens
  cases result with
  | ok b => simp
  | error e => cases hcommitted : e.committed <;> simp [hcommitted]

end

/-! ## Repetition -/

/-- The turns of a repeated rule: it gives the values in order, then nothing. -/
inductive Turns (inner : Inner) (rule : Rule (Option α)) :
    List Token → List α → List Token → Prop
  | stop {tokens rest : List Token} (h : Reads inner rule tokens none rest) :
      Turns inner rule tokens [] rest
  | turn {tokens mid rest : List Token} {a : α} {as : List α}
      (h : Reads inner rule tokens (some a) mid) (hrest : Turns inner rule mid as rest) :
      Turns inner rule tokens (a :: as) rest

section
variable {rule : Rule (Option α)} {as : List α}

theorem repeatStep_eq_ok {turns : Nat}
    (hshort : ∀ ts a rest, Reads inner rule ts (some a) rest → rest.length < ts.length)
    (hturns : tokens.length < turns) :
    repeatStep (rule.run inner) turns tokens = { result := .ok as, rest } ↔
      Turns inner rule tokens as rest := by
  induction turns generalizing tokens as with
  | zero => omega
  | succ turns ih =>
    rw [repeatStep]
    constructor
    · intro h
      split at h
      next => cases h
      next mid hrun => cases h; exact .stop hrun
      next a mid hrun =>
        have hlength := hshort tokens a mid hrun
        split at h
        next => cases h
        next as' rest' hrest =>
          cases h
          exact .turn hrun ((ih (by omega)).mp hrest)
    · intro h
      cases h with
      | stop h => rw [h]
      | @turn _ mid _ a as h hrest =>
        have hlength := hshort tokens a mid h
        rw [h]
        simp only [(ih (by omega)).mpr hrest]

theorem reads_repeated
    (hshort : ∀ ts a rest, Reads inner rule ts (some a) rest → rest.length < ts.length) :
    Reads inner rule.repeated tokens as rest ↔ Turns inner rule tokens as rest := by
  unfold Reads
  rw [run]
  exact repeatStep_eq_ok hshort (Nat.lt_succ_self _)

/-- A rule followed by a repeated one. -/
theorem reads_bind_repeated {first : Rule β} {γ : Type} {f : β → List α → γ} {c : γ}
    (hshort : ∀ ts a rest, Reads inner rule ts (some a) rest → rest.length < ts.length) :
    Reads inner (do let b ← first; let as ← rule.repeated; pure (f b as)) tokens c rest ↔
      ∃ b mid as, Reads inner first tokens b mid ∧ Turns inner rule mid as rest ∧ c = f b as := by
  rw [reads_bind]
  constructor
  · rintro ⟨b, mid, hfirst, h⟩
    obtain ⟨as, rest', has, hpure⟩ := reads_bind.mp h
    obtain ⟨rfl, rfl⟩ := reads_pure.mp hpure
    exact ⟨b, mid, as, hfirst, (reads_repeated hshort).mp has, rfl⟩
  · rintro ⟨b, mid, as, hfirst, has, rfl⟩
    refine ⟨b, mid, hfirst, reads_bind.mpr ?_⟩
    exact ⟨as, rest, (reads_repeated hshort).mpr has, reads_pure.mpr ⟨rfl, rfl⟩⟩

/-- A rule that gives something only where another one reads, as it stands in repetitions. -/
theorem reads_opened_some {first : Rule β} {next : Option β → Rule (Option α)} {a : α}
    (hnone : next none = pure none) :
    Reads inner (first.optional >>= next) tokens (some a) rest ↔
      ∃ b mid, Reads inner first tokens b mid ∧ Reads inner (next (some b)) mid (some a) rest := by
  rw [reads_bind]
  constructor
  · rintro ⟨choice, mid, hfirst, hrest⟩
    cases choice with
    | none => rw [hnone] at hrest; cases (reads_pure.mp hrest).1
    | some b => exact ⟨b, mid, reads_optional_some.mp hfirst, hrest⟩
  · rintro ⟨b, mid, hfirst, hrest⟩
    exact ⟨some b, mid, reads_optional_some.mpr hfirst, hrest⟩

theorem reads_opened_none {first : Rule β} {next : Option β → Rule (Option α)}
    (hnone : next none = pure none) :
    Reads inner (first.optional >>= next) tokens none rest ↔
      (Declines inner first tokens ∧ tokens = rest) ∨
        ∃ b mid, Reads inner first tokens b mid ∧ Reads inner (next (some b)) mid none rest := by
  rw [reads_bind]
  constructor
  · rintro ⟨choice, mid, hfirst, hrest⟩
    cases choice with
    | none =>
      rw [hnone] at hrest
      obtain ⟨-, rfl⟩ := reads_pure.mp hrest
      exact .inl (reads_optional_none.mp hfirst)
    | some b => exact .inr ⟨b, mid, reads_optional_some.mp hfirst, hrest⟩
  · rintro (⟨hfirst, rfl⟩ | ⟨b, mid, hfirst, hrest⟩)
    · exact ⟨none, tokens, reads_optional_none.mpr ⟨hfirst, rfl⟩, hnone ▸ reads_pure.mpr ⟨rfl, rfl⟩⟩
    · exact ⟨some b, mid, reads_optional_some.mpr hfirst, hrest⟩

/-- What gives a value never gives none. -/
theorem not_reads_pure_some {first : Rule α} :
    ¬ Reads inner (do let a ← first; pure (some a)) tokens none rest := by
  intro h
  obtain ⟨a, -, hnone⟩ := reads_map.mp h
  cases hnone

theorem reads_pure_some {first : Rule α} {a : α} :
    Reads inner (do let a ← first; pure (some a)) tokens (some a) rest ↔
      Reads inner first tokens a rest := by
  simp [reads_map]

/-- A rule that always gives something once it is opened. -/
theorem reads_opened_pure_none {first : Rule β} {value : β → Rule α}
    {next : Option β → Rule (Option α)} (hnone : next none = pure none)
    (hsome : ∀ b, next (some b) = do let a ← value b; pure (some a)) :
    Reads inner (first.optional >>= next) tokens none rest ↔
      Declines inner first tokens ∧ tokens = rest := by
  rw [reads_opened_none hnone]
  refine or_iff_left ?_
  rintro ⟨b, mid, -, h⟩
  rw [hsome] at h
  exact not_reads_pure_some h

end

/-! ## Taking tokens

Rules take tokens from the front only: what is left is always an end of what they got. -/

theorem isSuffix_repeatStep {step : List Token → Outcome (Option α)}
    (hstep : ∀ ts, (step ts).rest <:+ ts) (turns : Nat) (ts : List Token) :
    (repeatStep step turns ts).rest <:+ ts := by
  induction turns generalizing ts with
  | zero => exact List.suffix_refl ts
  | succ turns ih =>
    have hfirst := hstep ts
    rw [repeatStep]
    generalize step ts = outcome at hfirst ⊢
    obtain ⟨result, mid⟩ := outcome
    match result with
    | .error e => exact hfirst
    | .ok none => exact hfirst
    | .ok (some a) =>
      have hrest := ih mid
      dsimp only
      generalize repeatStep step turns mid = outcome at hrest ⊢
      obtain ⟨result, rest⟩ := outcome
      have htotal : rest <:+ ts := List.IsSuffix.trans hrest hfirst
      cases result with
      | error e => exact htotal
      | ok as => exact htotal

theorem isSuffix_run (hinner : ∀ phrase ts, (inner phrase ts).rest <:+ ts)
    (rule : Rule α) (ts : List Token) : (rule.run inner ts).rest <:+ ts := by
  induction rule generalizing ts with
  | succeed value => exact List.suffix_refl ts
  | fail error => exact List.suffix_refl ts
  | token expected accept =>
    cases ts with
    | nil => exact List.suffix_refl []
    | cons t ts =>
      rw [run]
      cases accept t with
      | none => exact List.suffix_refl (t :: ts)
      | some value => exact List.suffix_cons t ts
  | andThen first next ihfirst ihnext =>
    have hfirst := ihfirst ts
    rw [run]
    generalize first.run inner ts = outcome at hfirst ⊢
    obtain ⟨result, mid⟩ := outcome
    cases result with
    | error e => exact hfirst
    | ok a => exact List.IsSuffix.trans (ihnext a mid) hfirst
  | orElse first second ihfirst ihsecond =>
    have hfirst := ihfirst ts
    rw [run]
    generalize first.run inner ts = outcome at hfirst ⊢
    obtain ⟨result, mid⟩ := outcome
    cases result with
    | ok a => exact hfirst
    | error e =>
      dsimp only
      split
      · exact hfirst
      · exact ihsecond ts
  | label name rule ih =>
    have hrule := ih ts
    rw [run]
    generalize rule.run inner ts = outcome at hrule ⊢
    obtain ⟨result, mid⟩ := outcome
    cases result with
    | ok a => exact hrule
    | error e => exact hrule
  | commit name rule ih =>
    have hrule := ih ts
    rw [run]
    generalize rule.run inner ts = outcome at hrule ⊢
    obtain ⟨result, mid⟩ := outcome
    cases result with
    | ok a => exact hrule
    | error e =>
      dsimp only
      split
      · exact hrule
      · exact List.suffix_refl ts
  | optional rule ih =>
    have hrule := ih ts
    rw [run]
    generalize rule.run inner ts = outcome at hrule ⊢
    obtain ⟨result, mid⟩ := outcome
    cases result with
    | ok a => exact hrule
    | error e =>
      dsimp only
      split
      · exact hrule
      · exact List.suffix_refl ts
  | repeated rule ih => exact isSuffix_repeatStep ih _ ts
  | inner phrase => exact hinner phrase ts

theorem isSuffix_innerTo (depth : Nat) (phrase : Phrase) (ts : List Token) :
    (innerTo depth phrase ts).rest <:+ ts := by
  induction depth generalizing phrase ts with
  | zero => exact List.suffix_refl ts
  | succ depth ih => exact isSuffix_run ih (ofPhrase phrase) ts

theorem isSuffix_read (rule : Rule α) (ts : List Token) : (rule.read ts).rest <:+ ts :=
  isSuffix_run (isSuffix_innerTo ts.length) rule ts

theorem Reads.length_le {depth : Nat} {rule : Rule α} {a : α}
    (h : Reads (innerTo depth) rule tokens a rest) : rest.length ≤ tokens.length := by
  have hsuffix := isSuffix_run (isSuffix_innerTo depth) rule tokens
  rw [h] at hsuffix
  exact hsuffix.length_le

/-! ## Rules that never find a text malformed -/

/-- The rule reads or declines, whatever the tokens. -/
def Settles (inner : Inner) (rule : Rule α) : Prop :=
  ∀ tokens, (∃ a rest, Reads inner rule tokens a rest) ∨ Declines inner rule tokens

namespace Settles

theorem pure (a : α) : Settles inner (pure a) :=
  fun tokens => .inl ⟨a, tokens, reads_pure.mpr ⟨rfl, rfl⟩⟩

theorem token {expected : String} {accept : Token → Option α} :
    Settles inner (.token expected accept) := by
  intro tokens
  cases tokens with
  | nil => exact .inr (declines_token.mpr fun _ _ h => by cases h)
  | cons t ts =>
    cases haccept : accept t with
    | some a => exact .inl ⟨a, ts, reads_token.mpr ⟨t, haccept, rfl⟩⟩
    | none => exact .inr (declines_token.mpr fun _ _ h => by cases h; exact haccept)

theorem bind {first : Rule α} {next : α → Rule β} (hfirst : Settles inner first)
    (hnext : ∀ a, Settles inner (next a)) : Settles inner (first >>= next) := by
  intro tokens
  rcases hfirst tokens with ⟨a, mid, hreads⟩ | hdeclines
  · rcases hnext a mid with ⟨b, rest, hb⟩ | hb
    · exact .inl ⟨b, rest, reads_bind.mpr ⟨a, mid, hreads, hb⟩⟩
    · exact .inr (declines_bind.mpr (.inr ⟨a, mid, hreads, hb⟩))
  · exact .inr (declines_bind.mpr (.inl hdeclines))

theorem optional {rule : Rule α} (h : Settles inner rule) : Settles inner rule.optional := by
  intro tokens
  rcases h tokens with ⟨a, rest, hreads⟩ | hdeclines
  · exact .inl ⟨some a, rest, reads_optional_some.mpr hreads⟩
  · exact .inl ⟨none, tokens, reads_optional_none.mpr ⟨hdeclines, rfl⟩⟩

theorem repeated {rule : Rule (Option α)} (h : Settles inner rule) :
    Settles inner rule.repeated := by
  intro tokens
  unfold Reads Declines
  rw [run]
  generalize tokens.length + 1 = turns
  induction turns generalizing tokens with
  | zero => exact .inl ⟨[], tokens, rfl⟩
  | succ turns ih =>
    rw [repeatStep]
    rcases h tokens with ⟨a, mid, hreads⟩ | ⟨e, mid, herror, hcommitted⟩
    · rw [hreads]
      cases a with
      | none => exact .inl ⟨[], mid, rfl⟩
      | some a =>
        rcases ih mid with ⟨as, rest, hrest⟩ | ⟨e, rest, hrest, hcommitted⟩
        · simp only [hrest]; exact .inl ⟨a :: as, rest, rfl⟩
        · simp only [hrest]; exact .inr ⟨e, rest, rfl, hcommitted⟩
    · rw [herror]
      exact .inr ⟨e, mid, rfl, hcommitted⟩

end Settles

/-! ## Single tokens -/

theorem reads_ofKind {expected : String} {kind : TokenKind} {t : Token} :
    Reads inner (.token expected fun t => if t.kind = kind then some t else none) tokens t rest ↔
      t.kind = kind ∧ tokens = t :: rest := by
  rw [reads_token]
  constructor
  · rintro ⟨t', haccept, rfl⟩
    split at haccept
    next hkind => cases haccept; exact ⟨hkind, rfl⟩
    next => cases haccept
  · rintro ⟨hkind, rfl⟩
    exact ⟨t, by rw [if_pos hkind], rfl⟩

theorem declines_ofKind {expected : String} {kind : TokenKind} :
    Declines inner (.token expected fun t => if t.kind = kind then some t else none) tokens ↔
      ∀ t ts, tokens = t :: ts → t.kind ≠ kind := by
  rw [declines_token]
  refine forall₃_congr fun t ts _ => ?_
  split <;> simp_all

theorem reads_symbol {s : Symbol} {t : Token} :
    Reads inner (symbol s) tokens t rest ↔ t.kind = .symbol s ∧ tokens = t :: rest :=
  reads_ofKind

theorem declines_symbol {s : Symbol} :
    Declines inner (symbol s) tokens ↔ ∀ t ts, tokens = t :: ts → t.kind ≠ .symbol s :=
  declines_ofKind

theorem reads_newline {t : Token} :
    Reads inner newline tokens t rest ↔ t.kind = .newline ∧ tokens = t :: rest :=
  reads_ofKind

theorem declines_newline :
    Declines inner newline tokens ↔ ∀ t ts, tokens = t :: ts → t.kind ≠ .newline :=
  declines_ofKind

theorem reads_spannedName {x : String} {span : Text.Span} :
    Reads inner spannedName tokens (x, span) rest ↔
      ∃ t, t.kind = .name x ∧ t.span = span ∧ tokens = t :: rest := by
  unfold spannedName
  rw [reads_token]
  refine exists_congr fun t => ?_
  split <;> simp_all [and_assoc]

theorem declines_spannedName :
    Declines inner spannedName tokens ↔ ∀ t ts, tokens = t :: ts → ∀ x, t.kind ≠ .name x := by
  unfold spannedName
  rw [declines_token]
  refine forall₃_congr fun t ts _ => ?_
  split <;> simp_all

theorem reads_name {x : String} :
    Reads inner name tokens x rest ↔ ∃ t, t.kind = .name x ∧ tokens = t :: rest := by
  unfold name
  rw [reads_map]
  constructor
  · rintro ⟨⟨y, span⟩, hname, rfl⟩
    obtain ⟨t, hkind, -, rfl⟩ := reads_spannedName.mp hname
    exact ⟨t, hkind, rfl⟩
  · rintro ⟨t, hkind, rfl⟩
    exact ⟨(x, t.span), reads_spannedName.mpr ⟨t, hkind, rfl, rfl⟩, rfl⟩

/-- What is made of a name alone. -/
theorem reads_ofName {f : String → α} {a : α} :
    Reads inner (do let x ← name; pure (f x)) tokens a rest ↔
      ∃ t x, t.kind = .name x ∧ tokens = t :: rest ∧ a = f x := by
  rw [reads_map]
  constructor
  · rintro ⟨x, hname, rfl⟩
    obtain ⟨t, hkind, rfl⟩ := reads_name.mp hname
    exact ⟨t, x, hkind, rfl, rfl⟩
  · rintro ⟨t, x, hkind, rfl, rfl⟩
    exact ⟨x, reads_name.mpr ⟨t, hkind, rfl⟩, rfl⟩

theorem declines_name :
    Declines inner name tokens ↔ ∀ t ts, tokens = t :: ts → ∀ x, t.kind ≠ .name x := by
  unfold name
  rw [declines_bind, declines_spannedName]
  refine or_iff_left ?_
  rintro ⟨⟨y, span⟩, mid, -, hpure⟩
  exact hpure.not_reads (reads_pure.mpr ⟨rfl, rfl⟩)

theorem reads_number {e : Expr} :
    Reads inner number tokens e rest ↔ ∃ t v source, t.kind = .number v source ∧
      e = .number unnumbered v (some source) ∧ tokens = t :: rest := by
  unfold number
  rw [reads_token]
  constructor
  · rintro ⟨t, haccept, rfl⟩
    split at haccept
    next v source hkind => cases haccept; exact ⟨t, v, source, hkind, rfl, rfl⟩
    next => cases haccept
  · rintro ⟨t, v, source, hkind, rfl, rfl⟩
    exact ⟨t, by rw [hkind], rfl⟩

theorem declines_number :
    Declines inner number tokens ↔
      ∀ t ts, tokens = t :: ts → ∀ v source, t.kind ≠ .number v source := by
  unfold number
  rw [declines_token]
  refine forall₃_congr fun t ts _ => ?_
  split <;> simp_all

end Abacus.Rule
