import Abacus.Proofs.Grammar.Rewinding
import Abacus.Proofs.Grammar.Unbounded

/-!
# Reading always ends

Each rule that is entered on the way of another one has fewer tokens left than that, or all of them and
a lower place in the hierarchy (`Nonterminal.descends`). This holds since every rule but a statement list
takes a token (`Nonterminal.consumes`), and it leaves no room for an endless chain of entries
(`Nonterminal.wellFounded_enters`). All repetitions take a token in each turn (`Nonterminal.turning`). So
running a production without bounds comes to an end, and that is what reading its rule comes to
(`Nonterminal.comes_iff`).
-/
namespace Abacus

open Rule (innerTo)

namespace Production

variable {α β : Type} {k : Nat} {n : Nonterminal} {tokens rest : List Token}

/-! ## Taking a token -/

/-- Where the production succeeds it takes a token. -/
def Consumes (p : Production α) : Prop :=
  ∀ tokens a rest, Comes p tokens { result := .ok a, rest } → rest.length < tokens.length

namespace Consumes

variable {first second rule : Production α} {next : α → Production β}

theorem token {expected : String} {accept : Token → Option α} :
    Consumes (.token expected accept) := by
  intro tokens a rest h
  have h := h.byParts
  cases tokens with
  | nil => cases h
  | cons t ts =>
    rw [ComesByParts, Outcome.ofToken] at h
    cases haccept : accept t with
    | none => rw [haccept] at h; cases h
    | some b =>
      rw [haccept] at h
      cases h
      exact Nat.lt_succ_self _

theorem bind (h : Consumes first) : Consumes (first >>= next) := by
  intro tokens b rest hcomes
  rcases hcomes.byParts with ⟨a, mid, hfirst, hnext⟩ | ⟨e, mid, -, heq⟩
  · exact Nat.lt_of_le_of_lt hnext.suffix.length_le (h tokens a mid hfirst)
  · cases heq

theorem orElse (hfirst : Consumes first) (hsecond : Consumes second) :
    Consumes (first.orElse second) := by
  intro tokens a rest h
  rcases h.byParts with ⟨h, -⟩ | ⟨x, -, -, h⟩
  · exact hfirst tokens a rest h
  · exact hsecond tokens a rest h

theorem label {name : String} (h : Consumes rule) : Consumes (.label name rule) := by
  intro tokens a rest hcomes
  obtain ⟨⟨result, mid⟩, hrule, heq⟩ := hcomes.byParts
  cases result with
  | error e => cases heq
  | ok b =>
    cases heq
    exact h tokens _ _ hrule

theorem refer (h : Consumes n.production) : Consumes (.refer n) :=
  fun tokens a rest hcomes => h tokens a rest hcomes.byParts

end Consumes

/-! ## Turns -/

/-- The production fails plainly or takes a token, be it before an error. -/
structure Opens (p : Production α) : Prop where
  turning : p.Turning
  comes : ∀ tokens o, Comes p tokens o →
    o.isPlain = true ∨ o.rest.length < tokens.length

namespace Opens

theorem token {expected : String} {accept : Token → Option α} :
    Opens (.token expected accept) where
  turning := trivial
  comes := fun tokens o h => by
    rw [show o = .ofToken expected accept tokens from h.byParts]
    cases tokens with
    | nil => exact .inl rfl
    | cons t ts =>
      rw [Outcome.ofToken]
      cases accept t with
      | none => exact .inl rfl
      | some a => exact .inr (Nat.lt_succ_self _)

theorem bind_pure {first : Production α} (h : Opens first) (f : α → β) :
    Opens (first >>= fun a => pure (f a)) where
  turning := ⟨h.turning, fun _ => trivial⟩
  comes := fun tokens o hcomes => by
    rcases hcomes.byParts with ⟨a, mid, hfirst, hpure⟩ | ⟨e, mid, hfirst, rfl⟩
    · rw [show o = _ from hpure.byParts]
      exact .inr ((h.comes _ _ hfirst).resolve_left Bool.false_ne_true)
    · exact h.comes _ _ hfirst

theorem orElse {first second : Production α} (hfirst : Opens first) (hsecond : Opens second) :
    Opens (first.orElse second) where
  turning := ⟨hfirst.turning, hsecond.turning⟩
  comes := fun tokens o h => by
    rcases h.byParts with ⟨h, -⟩ | ⟨x, -, -, h⟩
    · exact hfirst.comes tokens o h
    · exact hsecond.comes tokens o h

theorem optional {first : Production α} (h : Opens first) {o : Outcome (Option α)}
    (hcomes : Comes first.optional tokens o) :
    o = { result := .ok none, rest := tokens } ∨ o.rest.length < tokens.length := by
  obtain ⟨x, hfirst, rfl⟩ := hcomes.byParts
  rw [Outcome.optional]
  split
  next => exact .inl rfl
  next hplain => exact .inr ((h.comes tokens x hfirst).resolve_left hplain)

/-- What is opened takes the token of its opening. -/
theorem takesTurns {first : Production α} (h : Opens first) (next : α → Production (Option β)) :
    TakesTurns (opened first next) := by
  intro tokens o hcomes
  rcases hcomes.byParts with ⟨choice, mid, hchoice, hnext⟩ | ⟨e, mid, hchoice, rfl⟩
  · rcases h.optional hchoice with heq | hlt
    · cases heq
      exact .inl hnext.byParts
    · exact .inr (Nat.lt_of_le_of_lt hnext.suffix.length_le hlt)
  · rcases h.optional hchoice with heq | hlt
    · cases heq
    · exact .inr hlt

end Opens

namespace Turning

variable {first second rule : Production α}

theorem bind {next : α → Production β} (hfirst : first.Turning) (hnext : ∀ a, (next a).Turning) :
    (first >>= next).Turning :=
  ⟨hfirst, hnext⟩

theorem skip {second : Production β} (hfirst : first.Turning) (hsecond : second.Turning) :
    (first.skip second).Turning :=
  hfirst.bind fun _ => hsecond.bind fun _ => trivial

theorem skipLeft {second : Production β} (hfirst : first.Turning) (hsecond : second.Turning) :
    (first.skipLeft second).Turning :=
  hfirst.bind fun _ => hsecond

theorem orElse (hfirst : first.Turning) (hsecond : second.Turning) : (first.orElse second).Turning :=
  ⟨hfirst, hsecond⟩

theorem label {name : String} (h : rule.Turning) : (Production.label name rule).Turning :=
  h

theorem opened {next : α → Production (Option β)} (h : Opens first)
    (hnext : ∀ a, (next a).Turning) : (opened first next).repeated.Turning := by
  refine ⟨⟨h.turning, fun choice => ?_⟩, h.takesTurns next⟩
  cases choice with
  | none => trivial
  | some a => exact hnext a

end Turning

/-! ## Going down -/

/-- What the production enters has fewer tokens left, or a place below `k`. -/
def Descends (k : Nat) (p : Production α) : Prop :=
  ∀ tokens n tokens', p.Enters tokens n tokens' →
    tokens'.length < tokens.length ∨ tokens' = tokens ∧ n.rank < k

theorem descends_of_suffix {mid tokens' : List Token} (hsuffix : mid <:+ tokens)
    (h : tokens'.length < mid.length ∨ tokens' = mid ∧ n.rank < k) :
    tokens'.length < tokens.length ∨ tokens' = tokens ∧ n.rank < k := by
  rcases h with hlt | ⟨rfl, hrank⟩
  · exact .inl (Nat.lt_of_lt_of_le hlt hsuffix.length_le)
  · rcases Nat.lt_or_eq_of_le hsuffix.length_le with hlt | heq
    · exact .inl hlt
    · exact .inr ⟨hsuffix.eq_of_length heq, hrank⟩

namespace Descends

variable {first second rule : Production α} {next : α → Production β}

theorem pure (a : α) : Descends k (pure a) :=
  fun _ _ _ h => h.elim

theorem token {expected : String} {accept : Token → Option α} :
    Descends k (.token expected accept) :=
  fun _ _ _ h => h.elim

/-- Behind what takes a token anything may be entered. -/
theorem behind (hfirst : Descends k first) (h : Consumes first) : Descends k (first >>= next) := by
  rintro tokens n tokens' (henters | ⟨a, mid, ha, henters⟩)
  · exact hfirst tokens n tokens' henters
  · exact .inl (Nat.lt_of_le_of_lt henters.suffix.length_le (h tokens a mid ha))

theorem bind (hfirst : Descends k first) (hnext : ∀ a, Descends k (next a)) :
    Descends k (first >>= next) := by
  rintro tokens n tokens' (henters | ⟨a, mid, ha, henters⟩)
  · exact hfirst tokens n tokens' henters
  · exact descends_of_suffix ha.suffix (hnext a mid n tokens' henters)

theorem orElse (hfirst : Descends k first) (hsecond : Descends k second) :
    Descends k (first.orElse second) := by
  rintro tokens n tokens' (henters | ⟨x, -, -, henters⟩)
  · exact hfirst tokens n tokens' henters
  · exact hsecond tokens n tokens' henters

theorem repeated {rule : Production (Option α)} (h : Descends k rule) :
    Descends k rule.repeated := by
  rintro tokens n tokens' ⟨mid, hturns, henters⟩
  exact descends_of_suffix hturns.suffix (h mid n tokens' henters)

theorem label {name : String} (h : Descends k rule) : Descends k (.label name rule) :=
  h

theorem optional (h : Descends k rule) : Descends k rule.optional :=
  h

theorem refer (h : n.rank < k) : Descends k (.refer n) := by
  rintro tokens m tokens' ⟨rfl, rfl⟩
  exact .inr ⟨rfl, h⟩

end Descends

end Production

namespace Nonterminal

open Production

/-! ## The productions of the grammar -/

section
variable {operand : Production Expr} {operator : Rule Operator} {what : String}

theorem opens_operator (s : Symbol) (op : Operator) : Opens (Rule.operator s op).production :=
  Opens.token.bind_pure fun _ => op

theorem turning_chain (hoperand : operand.Turning) (h : Opens operator.production) :
    (chain operand operator what).Turning :=
  .bind hoperand fun _ => .bind (.opened h fun _ => .bind hoperand fun _ => trivial) fun _ => trivial

end

/-- Every rule but a statement list takes a token. -/
theorem consumes (n : Nonterminal) (h : n ≠ .stmts) : Consumes n.production := by
  have hname : Consumes name.production := Consumes.token.bind
  have hnumber : Consumes number.production := Consumes.token
  have hvar : Consumes var.production := hname.refer.bind
  have hcall : Consumes call.production := hname.refer.bind.bind
  have hvalue : Consumes value.production := by
    refine .label (.orElse ?grouped (.orElse ?negated (.orElse ?juxtaposed ?rest)))
    case grouped => exact Consumes.token.bind.bind
    case negated => exact Consumes.token.bind.bind
    case juxtaposed => exact hnumber.refer.bind
    case rest => exact hcall.refer.orElse (hvar.refer.orElse hnumber.refer)
  have hpower : Consumes power.production := hvalue.refer.bind
  have hterm : Consumes term.production := hpower.refer.bind
  have hexpression : Consumes expression.production := hterm.refer.bind
  have hassign : Consumes assign.production := hname.refer.bind.bind
  have hdefine : Consumes define.production := Consumes.token.bind.bind.bind
  cases n with
  | stmts => exact absurd rfl h
  | statement => exact hdefine.refer.orElse (hassign.refer.orElse hexpression.refer.bind)
  | define => exact hdefine
  | assign => exact hassign
  | expression => exact hexpression
  | term => exact hterm
  | power => exact hpower
  | value => exact hvalue
  | call => exact hcall
  | var => exact hvar
  | number => exact hnumber
  | name => exact hname

theorem turning_arguments : arguments.Turning := by
  refine .bind trivial fun _ => .bind (.opened .token fun _ => ?_) fun _ => trivial
  exact .bind trivial fun _ => trivial

theorem turning_defineHead : defineHead.Turning := by
  have hparam : param.Turning := .bind trivial fun _ => trivial
  have hparams : params.Turning := by
    refine .bind hparam fun _ => .bind (.opened .token fun _ => ?_) fun _ => trivial
    exact .bind hparam fun _ => trivial
  refine .bind (.skip trivial trivial) fun _ => .bind hparams fun _ => ?_
  exact .bind trivial fun _ => .bind trivial fun _ => trivial

theorem turning_ownName (f : String) (span : Text.Span) : (Rule.ownName f span).production.Turning := by
  unfold Rule.ownName
  cases Builtin.ofName? f <;> trivial

/-- The turns of all loops take tokens. -/
theorem turning (n : Nonterminal) : n.production.Turning := by
  cases n with
  | stmts =>
    refine .bind trivial fun choice => ?_
    cases choice with
    | none => trivial
    | some first => exact .bind (.opened .token fun _ => trivial) fun _ => trivial
  | statement => exact .orElse trivial (.orElse trivial (.bind trivial fun _ => trivial))
  | define =>
    refine .bind turning_defineHead fun head => .bind (turning_ownName head.1.1 head.1.2) fun _ => ?_
    refine .bind (.orElse ?braced ?inline) fun _ => trivial
    case braced => exact .skip (.skipLeft (.skipLeft trivial trivial) trivial) trivial
    case inline => exact .bind trivial fun _ => trivial
  | assign => exact .bind (.skip trivial trivial) fun _ => .bind trivial fun _ => trivial
  | expression =>
    exact turning_chain trivial ((opens_operator .plus .add).orElse (opens_operator .minus .subtract))
  | term =>
    exact turning_chain trivial ((opens_operator .times .multiply).orElse
      ((opens_operator .slash .divide).orElse (opens_operator .percent .modulo)))
  | power => exact turning_chain trivial (opens_operator .caret .exponentiate)
  | value =>
    refine .label (.orElse ?grouped (.orElse ?negated (.orElse ?juxtaposed ?rest)))
    case grouped => exact .skip (.skipLeft trivial trivial) trivial
    case negated => exact .bind (.skipLeft trivial trivial) fun _ => trivial
    case juxtaposed => exact .bind trivial fun _ => .bind trivial fun _ => trivial
    case rest => exact .orElse trivial (.orElse trivial trivial)
  | call =>
    refine .bind (.skip trivial trivial) fun _ => .bind turning_arguments fun _ => ?_
    exact .bind trivial fun _ => trivial
  | var => exact .bind trivial fun _ => trivial
  | number => trivial
  | name => exact .bind trivial fun _ => trivial

/-- What a rule enters has fewer tokens left, or a lower place in the hierarchy. -/
theorem descends (n : Nonterminal) : Descends n.rank n.production := by
  have lower {m : Nonterminal} (h : m.rank < n.rank) : Descends n.rank (refer m) := .refer h
  have takes (m : Nonterminal) (h : m ≠ .stmts) : Consumes (refer m) := (consumes m h).refer
  cases n with
  | stmts =>
    refine .bind (.optional (lower (by decide))) fun choice => ?_
    cases choice with
    | none => exact .pure _
    | some first =>
      refine .bind (.repeated (.bind (.optional .token) fun choice => ?_)) fun _ => .pure _
      cases choice with
      | none => exact .pure _
      | some t => exact .optional (lower (by decide))
  | statement =>
    refine .orElse (lower (by decide)) (.orElse (lower (by decide)) ?_)
    exact .bind (lower (by decide)) fun _ => .pure _
  | define => exact .behind (.behind (.behind .token .token) Consumes.token.bind) Consumes.token.bind.bind
  | assign =>
    exact .behind (.behind (lower (by decide)) (takes .name (by decide))) (takes .name (by decide)).bind
  | expression => exact .behind (lower (by decide)) (takes .term (by decide))
  | term => exact .behind (lower (by decide)) (takes .power (by decide))
  | power => exact .behind (lower (by decide)) (takes .value (by decide))
  | value =>
    refine .label (.orElse ?grouped (.orElse ?negated (.orElse ?juxtaposed ?rest)))
    case grouped => exact .behind (.behind .token .token) Consumes.token.bind
    case negated => exact .behind (.behind .token .token) Consumes.token.bind
    case juxtaposed => exact .behind (lower (by decide)) (takes .number (by decide))
    case rest => exact .orElse (lower (by decide)) (.orElse (lower (by decide)) (lower (by decide)))
  | call =>
    exact .behind (.behind (lower (by decide)) (takes .name (by decide))) (takes .name (by decide)).bind
  | var => exact .bind (lower (by decide)) fun _ => .pure _
  | number => exact .token
  | name => exact .bind .token fun _ => .pure _

/-! ## Reading without bounds -/

/-- Rules enter one another only finitely deep. -/
theorem wellFounded_enters :
    WellFounded fun x y : Nonterminal × List Token => y.1.production.Enters y.2 x.1 x.2 := by
  refine Subrelation.wf ?_ (InvImage.wf
    (fun x : Nonterminal × List Token => (x.2.length, x.1.rank)) (Prod.lex Nat.lt_wfRel Nat.lt_wfRel).wf)
  rintro ⟨m, tokens'⟩ ⟨n, tokens⟩ henters
  rcases n.descends tokens m tokens' henters with hlt | ⟨rfl, hrank⟩
  · exact Prod.Lex.left _ _ hlt
  · exact Prod.Lex.right _ hrank

/-- What running the production comes to is what the rule comes to, in either form, as soon as inner
phrases may nest as deep as there are tokens. -/
structure Agrees (n : Nonterminal) (tokens : List Token) : Prop where
  rule : ∀ depth, tokens.length ≤ depth →
    Comes n.production tokens (n.rule.run (innerTo depth) tokens)
  innerRule : ∀ depth, tokens.length < depth →
    Comes n.production tokens (n.innerRule.run (innerTo depth) tokens)

variable {n : Nonterminal} {tokens : List Token}

theorem comes_rule (h : ∀ m tokens', n.production.Enters tokens m tokens' → m.Agrees tokens')
    (depth : Nat) (hdepth : tokens.length ≤ depth) :
    Comes n.production tokens (n.rule.run (innerTo depth) tokens) := by
  rw [rule_eq]
  refine comes_resolve n.production n.turning fun m tokens' henters => ?_
  rcases n.descends tokens m tokens' henters with hlt | ⟨rfl, hrank⟩
  · rw [mention]
    split
    next => exact (h m tokens' henters).rule depth (by omega)
    next => exact (h m tokens' henters).innerRule depth (by omega)
  · rw [mention, if_pos hrank]
    exact (h m tokens' henters).rule depth hdepth

theorem comes_innerRule (h : ∀ m tokens', n.production.Enters tokens m tokens' → m.Agrees tokens')
    (depth : Nat) (hdepth : tokens.length < depth) :
    Comes n.production tokens (n.innerRule.run (innerTo depth) tokens) := by
  obtain ⟨depth, rfl⟩ := Nat.exists_eq_add_one_of_ne_zero (Nat.ne_zero_of_lt hdepth)
  cases n with
  | stmts =>
    show Comes _ tokens ((Rule.statementList Rule.innerStatement).run (innerTo (depth + 1)) tokens)
    have hstmts : stmts.production.resolve innerRule = Rule.statementList Rule.innerStatement :=
      resolve_stmts
    rw [← hstmts]
    refine comes_resolve _ (turning .stmts) fun m tokens' henters => ?_
    exact (h m tokens' henters).innerRule _ (Nat.lt_of_le_of_lt henters.suffix.length_le hdepth)
  | statement => exact comes_rule h depth (Nat.le_of_lt_succ hdepth)
  | expression => exact comes_rule h depth (Nat.le_of_lt_succ hdepth)
  | define | assign | term | power | value | call | var | number | name =>
    exact comes_rule h (depth + 1) (Nat.le_of_lt hdepth)

theorem agrees (n : Nonterminal) (tokens : List Token) : n.Agrees tokens := by
  have h := wellFounded_enters.induction (C := fun x => x.1.Agrees x.2) (n, tokens)
  refine h fun x ih => ?_
  have hentered : ∀ m tokens', x.1.production.Enters x.2 m tokens' → m.Agrees tokens' :=
    fun m tokens' henters => ih (m, tokens') henters
  exact ⟨comes_rule hentered, comes_innerRule hentered⟩

/-- Running the production comes to an end, with what reading the rule comes to. -/
theorem comes_iff {o : Outcome n.Tree} :
    Comes n.production tokens o ↔ o = n.rule.read tokens := by
  have hread : Comes n.production tokens (n.rule.read tokens) :=
    (n.agrees tokens).rule tokens.length (Nat.le_refl _)
  constructor
  · exact fun h => h.unique hread
  · rintro rfl
    exact hread

/-- **Reading always ends.** Wherever a rule of the grammar is read, running its production without any
bound comes to an end, and to what reading the rule comes to. A success of any rule but a statement list
leaves the cursor further on. In the loops, of chains, statements, arguments and parameters, each turn
takes a token. And each rule that is entered on the way, be it in vain, has fewer tokens left than this
one, or as many and a lower place in the hierarchy. -/
theorem read_terminates (n : Nonterminal) (c : Cursor) :
    (n.rule = n.production.resolve n.mention ∧
      ∀ o, Comes n.production c.rest o ↔ o = n.rule.read c.rest) ∧
    (n ≠ .stmts → ∀ a, (c.run n.rule.read).1 = .ok a → c.index < (c.run n.rule.read).2.index) ∧
    n.production.Turning ∧
    ∀ m tokens, n.production.Enters c.rest m tokens →
      tokens.length < c.rest.length ∨ tokens = c.rest ∧ m.rank < n.rank := by
  refine ⟨⟨n.rule_eq, fun _ => comes_iff⟩, ?forward, n.turning, n.descends c.rest⟩
  case forward =>
    intro hn a hread
    have hcomes : Comes n.production c.rest { result := .ok a, rest := (n.rule.read c.rest).rest } :=
      comes_iff.mpr (by rw [← hread]; rfl)
    have hlt := n.consumes hn _ _ _ hcomes
    show c.index < c.index + (c.rest.length - (n.rule.read c.rest).rest.length)
    omega

/-- The tokens of a line end and `-x`, read from the sign on. -/
def negatedName : Cursor where
  tokens := [
    { kind := .newline, span := ⟨⟨0, 0⟩, ⟨1, 0⟩, "\n"⟩, offset := 0 },
    { kind := .symbol .minus, span := ⟨⟨1, 0⟩, ⟨1, 1⟩, "-"⟩, offset := 1 },
    { kind := .name "x", span := ⟨⟨1, 1⟩, ⟨1, 2⟩, "x"⟩, offset := 2 }]
  index := 1

/-- The value is read up to the end. On its way is an expression behind the sign. -/
theorem read_terminates_negatedName :
    (value ≠ .stmts ∧
      negatedName.run value.rule.read =
        (.ok (.negate unnumbered (.var unnumbered "x")), negatedName.restore 3) ∧
      negatedName.index < (negatedName.run value.rule.read).2.index) ∧
    value.production.Enters negatedName.rest .expression (negatedName.restore 2).rest ∧
      ((negatedName.restore 2).rest.length < negatedName.rest.length ∨
        (negatedName.restore 2).rest = negatedName.rest ∧ expression.rank < value.rank) := by
  obtain ⟨-, htakes, -, hdescends⟩ := read_terminates value negatedName
  have hvalue : value ≠ .stmts := by decide
  have hread : negatedName.run value.rule.read =
      (.ok (.negate unnumbered (.var unnumbered "x")), negatedName.restore 3) := by rfl
  have hgrouped : Comes grouped negatedName.rest
      { result := .error (negatedName.unexpected (Symbol.describe .openParen)),
        rest := negatedName.rest } :=
    .failed _ (.failed _ (.token _ _ _))
  have henters : value.production.Enters negatedName.rest .expression (negatedName.restore 2).rest :=
    .inr ⟨_, hgrouped, rfl, .inl (.inl (.inr ⟨_, _, .token _ _ _, rfl, rfl⟩))⟩
  exact ⟨⟨hvalue, hread, htakes hvalue _ (congrArg Prod.fst hread)⟩, henters,
    hdescends .expression _ henters⟩

end Nonterminal
end Abacus
