import Abacus.Proofs.Grammar.Derivation
import Abacus.Proofs.Grammar.Rules

/-!
# The rules of the grammar, one by one

What each rule reads, in terms of the rules in it. The four rules of the chain of precedences are
one family, as the derivations are: `levelRule k` reads a chain of operands of the next level
(`reads_levelRule`), joined by the operators of precedence `k` (`reads_operatorRule`).
-/
namespace Abacus

/-- What kinds of tokens there are. -/
def kinds (tokens : List Token) : List TokenKind :=
  tokens.map Token.kind

@[simp] theorem kinds_nil : kinds [] = [] := rfl

@[simp] theorem kinds_cons (t : Token) (tokens : List Token) :
    kinds (t :: tokens) = t.kind :: kinds tokens := rfl

@[simp] theorem kinds_append (tokens tokens' : List Token) :
    kinds (tokens ++ tokens') = kinds tokens ++ kinds tokens' :=
  List.map_append

theorem kinds_eq_cons {tokens : List Token} {kind : TokenKind} {text : List TokenKind} :
    kinds tokens = kind :: text ↔
      ∃ t ts, tokens = t :: ts ∧ t.kind = kind ∧ kinds ts = text :=
  List.map_eq_cons_iff

@[simp] theorem length_kinds (tokens : List Token) : (kinds tokens).length = tokens.length :=
  List.length_map _

namespace Rule

variable {α β : Type} {inner : Inner} {tokens rest : List Token}

/-! ## Parts of rules -/

theorem reads_skip {first : Rule α} {second : Rule β} {a : α} :
    Reads inner (first.skip second) tokens a rest ↔
      ∃ mid b, Reads inner first tokens a mid ∧ Reads inner second mid b rest := by
  unfold skip
  rw [reads_bind]
  constructor
  · rintro ⟨a', mid, hfirst, hsecond⟩
    obtain ⟨b, rest', hb, hpure⟩ := reads_bind.mp hsecond
    obtain ⟨rfl, rfl⟩ := reads_pure.mp hpure
    exact ⟨mid, b, hfirst, hb⟩
  · rintro ⟨mid, b, hfirst, hsecond⟩
    exact ⟨a, mid, hfirst, reads_bind.mpr ⟨b, rest, hsecond, reads_pure.mpr ⟨rfl, rfl⟩⟩⟩

theorem reads_skipLeft {first : Rule α} {second : Rule β} {b : β} :
    Reads inner (first.skipLeft second) tokens b rest ↔
      ∃ a mid, Reads inner first tokens a mid ∧ Reads inner second mid b rest :=
  reads_bind

/-- Inner phrases are read by the rule of the phrase, one level further in. -/
theorem reads_inner {depth : Nat} {phrase : Phrase} {a : phrase.Tree} :
    Reads (innerTo (depth + 1)) (.inner phrase) tokens a rest ↔
      Reads (innerTo depth) (ofPhrase phrase) tokens a rest := by
  unfold Reads
  rw [run, innerTo]

theorem not_reads_inner_zero {phrase : Phrase} {a : phrase.Tree} :
    ¬ Reads (innerTo 0) (.inner phrase) tokens a rest := by
  intro h
  unfold Reads at h
  rw [run] at h
  cases h

theorem declines_inner {depth : Nat} {phrase : Phrase}
    (h : ∀ depth, Declines (innerTo depth) (ofPhrase phrase) tokens) :
    Declines (innerTo depth) (.inner phrase) tokens := by
  unfold Declines
  rw [run]
  cases depth with
  | zero => cases tokens <;> exact ⟨_, _, rfl, rfl⟩
  | succ depth => exact h depth

/-! ## Operators -/

/-- The rule takes one of these operators. -/
structure Chooses (inner : Inner) (rule : Rule Operator) (ops : List Operator) : Prop where
  reads : ∀ {tokens op rest}, Reads inner rule tokens op rest ↔
    op ∈ ops ∧ ∃ t, t.kind = .symbol op.sign ∧ tokens = t :: rest
  declines : ∀ {tokens}, Declines inner rule tokens ↔
    ∀ op ∈ ops, ∀ t ts, tokens = t :: ts → t.kind ≠ .symbol op.sign

theorem Chooses.operator (op : Operator) : Chooses inner (operator op.sign op) [op] := by
  unfold Rule.operator
  constructor
  · intro tokens op' rest
    rw [reads_bind, List.mem_singleton]
    constructor
    · rintro ⟨t, mid, hsymbol, hpure⟩
      obtain ⟨hkind, rfl⟩ := reads_symbol.mp hsymbol
      obtain ⟨rfl, rfl⟩ := reads_pure.mp hpure
      exact ⟨rfl, t, hkind, rfl⟩
    · rintro ⟨rfl, t, hkind, rfl⟩
      exact ⟨t, rest, reads_symbol.mpr ⟨hkind, rfl⟩, reads_pure.mpr ⟨rfl, rfl⟩⟩
  · intro tokens
    rw [declines_bind, declines_symbol, List.forall_mem_singleton]
    refine or_iff_left ?_
    rintro ⟨t, mid, -, hpure⟩
    exact hpure.not_reads (reads_pure.mpr ⟨rfl, rfl⟩)

theorem Chooses.orElse {first second : Rule Operator} {ops ops' : List Operator}
    (hfirst : Chooses inner first ops) (hsecond : Chooses inner second ops') :
    Chooses inner (first.orElse second) (ops ++ ops') := by
  constructor
  · intro tokens op rest
    rw [reads_orElse, hfirst.reads, hfirst.declines, hsecond.reads, List.mem_append]
    constructor
    · rintro (⟨hop, h⟩ | ⟨-, hop, h⟩)
      · exact ⟨.inl hop, h⟩
      · exact ⟨.inr hop, h⟩
    · rintro ⟨hop, t, hkind, rfl⟩
      by_cases hmem : op ∈ ops
      · exact .inl ⟨hmem, t, hkind, rfl⟩
      · refine .inr ⟨?_, hop.resolve_left hmem, t, hkind, rfl⟩
        rintro op' hop' _ _ htokens hkind'
        cases htokens
        rw [hkind] at hkind'
        have hsign : op = op' := Operator.sign_injective (TokenKind.symbol.inj hkind')
        exact hmem (hsign ▸ hop')
  · intro tokens
    rw [declines_orElse, hfirst.declines, hsecond.declines, List.forall_mem_append]

/-- The rule of the operators of precedence `k`. -/
def operatorRule : Nat → Rule Operator
  | 1 => additive
  | 2 => multiplicative
  | _ => exponential

/-- The operators of precedence `k`. -/
theorem chooses_operatorRule (inner : Inner) {k : Nat} (hk : 1 ≤ k) (hk' : k ≤ 3) :
    ∃ ops, Chooses inner (operatorRule k) ops ∧ ∀ op, op ∈ ops ↔ op.precedence = k := by
  obtain rfl | rfl | rfl : k = 1 ∨ k = 2 ∨ k = 3 := by omega
  · refine ⟨_, (Chooses.operator .add).orElse (.operator .subtract), ?_⟩
    intro op
    cases op <;> decide
  · refine ⟨_, (Chooses.operator .multiply).orElse
      ((Chooses.operator .divide).orElse (.operator .modulo)), ?_⟩
    intro op
    cases op <;> decide
  · refine ⟨_, Chooses.operator .exponentiate, ?_⟩
    intro op
    cases op <;> decide

theorem reads_operatorRule {k : Nat} (hk : 1 ≤ k) (hk' : k ≤ 3) {op : Operator} :
    Reads inner (operatorRule k) tokens op rest ↔
      op.precedence = k ∧ ∃ t, t.kind = .symbol op.sign ∧ tokens = t :: rest := by
  obtain ⟨ops, hops, hmem⟩ := chooses_operatorRule inner hk hk'
  rw [hops.reads, hmem]

theorem declines_operatorRule {k : Nat} (hk : 1 ≤ k) (hk' : k ≤ 3) :
    Declines inner (operatorRule k) tokens ↔
      ∀ op : Operator, op.precedence = k → ∀ t ts, tokens = t :: ts → t.kind ≠ .symbol op.sign := by
  obtain ⟨ops, hops, hmem⟩ := chooses_operatorRule inner hk hk'
  rw [hops.declines]
  exact forall_congr' fun op => by rw [hmem]

/-! ## Chains -/

/-- The rule of the expressions of level `k`. -/
def levelRule : Nat → Rule Expr
  | 0 => expression
  | 1 => expression
  | 2 => term
  | 3 => power
  | _ => value

theorem levelRule_eq_chain {k : Nat} (hk : 1 ≤ k) (hk' : k ≤ 3) :
    ∃ what, levelRule k = chain (levelRule (k + 1)) (operatorRule k) what := by
  obtain rfl | rfl | rfl : k = 1 ∨ k = 2 ∨ k = 3 := by omega
  · exact ⟨"expression", rfl⟩
  · exact ⟨"term", rfl⟩
  · exact ⟨"power", rfl⟩

section
variable {operand : Rule Expr} {ops : Rule Operator} {what : String}

theorem reads_chainLink_some {op : Operator} {e : Expr} :
    Reads inner (chainLink operand ops what) tokens (some (op, e)) rest ↔
      ∃ mid, Reads inner ops tokens op mid ∧ Reads inner operand mid e rest := by
  unfold chainLink
  rw [reads_opened_some (by rfl)]
  constructor
  · rintro ⟨op', mid, hops, hrest⟩
    obtain ⟨e', rest', hoperand, hpure⟩ := reads_bind.mp hrest
    obtain ⟨heq, rfl⟩ := reads_pure.mp hpure
    cases heq
    exact ⟨mid, hops, reads_commit.mp hoperand⟩
  · rintro ⟨mid, hops, hoperand⟩
    refine ⟨op, mid, hops, reads_bind.mpr ?_⟩
    exact ⟨e, rest, reads_commit.mpr hoperand, reads_pure.mpr ⟨rfl, rfl⟩⟩

theorem reads_chainLink_none :
    Reads inner (chainLink operand ops what) tokens none rest ↔
      Declines inner ops tokens ∧ tokens = rest := by
  unfold chainLink
  rw [reads_opened_none (by rfl)]
  refine or_iff_left ?_
  rintro ⟨op, mid, -, hrest⟩
  obtain ⟨e, rest', -, hpure⟩ := reads_bind.mp hrest
  cases (reads_pure.mp hpure).1

theorem reads_chain {depth : Nat} {e : Expr}
    (hshort : ∀ ts op mid, Reads (innerTo depth) ops ts op mid → mid.length < ts.length) :
    Reads (innerTo depth) (chain operand ops what) tokens e rest ↔
      ∃ first mid links, Reads (innerTo depth) operand tokens first mid ∧
        Turns (innerTo depth) (chainLink operand ops what) mid links rest ∧
        e = nestRight first links := by
  have hlink : ∀ ts link rest,
      Reads (innerTo depth) (chainLink operand ops what) ts (some link) rest →
        rest.length < ts.length := by
    intro ts link rest h
    obtain ⟨mid, hops, hoperand⟩ := reads_chainLink_some.mp h
    exact Nat.lt_of_le_of_lt hoperand.length_le (hshort ts _ mid hops)
  exact reads_bind_repeated hlink

end

/-- A level is a chain of operands of the next level. -/
theorem reads_levelRule (depth : Nat) {k : Nat} (hk : 1 ≤ k) (hk' : k ≤ 3) :
    ∃ what, ∀ {tokens : List Token} {e : Expr} {rest : List Token},
      Reads (innerTo depth) (levelRule k) tokens e rest ↔
        ∃ first mid links, Reads (innerTo depth) (levelRule (k + 1)) tokens first mid ∧
          Turns (innerTo depth) (chainLink (levelRule (k + 1)) (operatorRule k) what) mid links
            rest ∧
          e = nestRight first links := by
  obtain ⟨what, heq⟩ := levelRule_eq_chain hk hk'
  refine ⟨what, fun {tokens e rest} => ?_⟩
  rw [heq]
  refine reads_chain fun ts op mid h => ?_
  obtain ⟨-, t, -, rfl⟩ := (reads_operatorRule hk hk').mp h
  exact Nat.lt_succ_self _

/-! ## Arguments -/

theorem reads_nextArgument_some {e : Expr} :
    Reads inner nextArgument tokens (some e) rest ↔ ∃ t mid, t.kind = .symbol .comma ∧
      tokens = t :: mid ∧ Reads inner innerExpression mid e rest := by
  unfold nextArgument
  rw [reads_opened_some (by rfl)]
  constructor
  · rintro ⟨t, mid, hcomma, harg⟩
    obtain ⟨hkind, rfl⟩ := reads_symbol.mp hcomma
    exact ⟨t, mid, hkind, rfl, reads_commit.mp (reads_pure_some.mp harg)⟩
  · rintro ⟨t, mid, hkind, rfl, harg⟩
    exact ⟨t, mid, reads_symbol.mpr ⟨hkind, rfl⟩, reads_pure_some.mpr (reads_commit.mpr harg)⟩

theorem reads_nextArgument_none :
    Reads inner nextArgument tokens none rest ↔
      Declines inner (symbol .comma) tokens ∧ tokens = rest :=
  reads_opened_pure_none (by rfl) fun _ => by rfl

theorem reads_arguments {depth : Nat} {args : List Expr} :
    Reads (innerTo depth) arguments tokens args rest ↔
      ∃ first mid others, Reads (innerTo depth) innerExpression tokens first mid ∧
        Turns (innerTo depth) nextArgument mid others rest ∧ args = first :: others := by
  have hshort : ∀ ts arg rest, Reads (innerTo depth) nextArgument ts (some arg) rest →
      rest.length < ts.length := by
    intro ts arg rest h
    obtain ⟨t, mid, -, rfl, harg⟩ := reads_nextArgument_some.mp h
    exact Nat.lt_succ_of_le harg.length_le
  exact reads_bind_repeated hshort

/-! ## The choices of a value -/

theorem reads_grouped {e : Expr} :
    Reads inner grouped tokens e rest ↔ ∃ t mid t', t.kind = .symbol .openParen ∧
      t'.kind = .symbol .closeParen ∧ tokens = t :: mid ∧
      Reads inner innerExpression mid e (t' :: rest) := by
  unfold grouped
  rw [reads_skip]
  constructor
  · rintro ⟨mid, t', h, hclose⟩
    obtain ⟨t, mid', hopen, hinner⟩ := reads_skipLeft.mp h
    obtain ⟨hkind, rfl⟩ := reads_symbol.mp hopen
    obtain ⟨hkind', rfl⟩ := reads_symbol.mp hclose
    exact ⟨t, mid', t', hkind, hkind', rfl, hinner⟩
  · rintro ⟨t, mid, t', hkind, hkind', rfl, hinner⟩
    refine ⟨t' :: rest, t', reads_skipLeft.mpr ?_, reads_symbol.mpr ⟨hkind', rfl⟩⟩
    exact ⟨t, mid, reads_symbol.mpr ⟨hkind, rfl⟩, hinner⟩

theorem reads_negated {e : Expr} :
    Reads inner negated tokens e rest ↔ ∃ t mid operand, t.kind = .symbol .minus ∧
      tokens = t :: mid ∧ Reads inner innerExpression mid operand rest ∧
      e = .negate unnumbered operand := by
  unfold negated
  rw [reads_map]
  constructor
  · rintro ⟨operand, h, rfl⟩
    obtain ⟨t, mid, hminus, hinner⟩ := reads_skipLeft.mp h
    obtain ⟨hkind, rfl⟩ := reads_symbol.mp hminus
    exact ⟨t, mid, operand, hkind, rfl, hinner, rfl⟩
  · rintro ⟨t, mid, operand, hkind, rfl, hinner, rfl⟩
    refine ⟨operand, reads_skipLeft.mpr ?_, rfl⟩
    exact ⟨t, mid, reads_symbol.mpr ⟨hkind, rfl⟩, hinner⟩

theorem reads_juxtaposed {e : Expr} :
    Reads inner juxtaposed tokens e rest ↔ ∃ t t' v source x, t.kind = .number v source ∧
      t'.kind = .name x ∧ tokens = t :: t' :: rest ∧
      e = .binary unnumbered .multiply (.number unnumbered v (some source)) (.var unnumbered x) := by
  unfold juxtaposed
  rw [reads_bind]
  constructor
  · rintro ⟨coefficient, mid, hnumber, h⟩
    obtain ⟨x, rest', hname, hpure⟩ := reads_bind.mp h
    obtain ⟨rfl, rfl⟩ := reads_pure.mp hpure
    obtain ⟨t, v, source, hkind, rfl, rfl⟩ := reads_number.mp hnumber
    obtain ⟨t', hkind', rfl⟩ := reads_name.mp hname
    exact ⟨t, t', v, source, x, hkind, hkind', rfl, rfl⟩
  · rintro ⟨t, t', v, source, x, hkind, hkind', rfl, rfl⟩
    refine ⟨_, t' :: rest, reads_number.mpr ⟨t, v, source, hkind, rfl, rfl⟩, ?_⟩
    exact reads_bind.mpr ⟨x, rest, reads_name.mpr ⟨t', hkind', rfl⟩, reads_pure.mpr ⟨rfl, rfl⟩⟩

theorem reads_call {e : Expr} :
    Reads inner call tokens e rest ↔ ∃ t t' mid t'' f args, t.kind = .name f ∧
      t'.kind = .symbol .openParen ∧ t''.kind = .symbol .closeParen ∧ tokens = t :: t' :: mid ∧
      Reads inner arguments.optional mid args (t'' :: rest) ∧
      e = .call unnumbered f (args.getD []) := by
  unfold call
  rw [reads_bind]
  constructor
  · rintro ⟨f, mid, hhead, h⟩
    obtain ⟨mid', t', hname, hopen⟩ := reads_skip.mp hhead
    obtain ⟨t, hkind, rfl⟩ := reads_name.mp hname
    obtain ⟨hkind', rfl⟩ := reads_symbol.mp hopen
    obtain ⟨args, mid'', hargs, h⟩ := reads_bind.mp h
    obtain ⟨t'', rest', hclose, hpure⟩ := reads_bind.mp h
    obtain ⟨hkind'', rfl⟩ := reads_symbol.mp hclose
    obtain ⟨rfl, rfl⟩ := reads_pure.mp hpure
    exact ⟨t, t', mid, t'', f, args, hkind, hkind', hkind'', rfl, hargs, rfl⟩
  · rintro ⟨t, t', mid, t'', f, args, hkind, hkind', hkind'', rfl, hargs, rfl⟩
    refine ⟨f, mid, reads_skip.mpr ⟨t' :: mid, t', reads_name.mpr ⟨t, hkind, rfl⟩,
      reads_symbol.mpr ⟨hkind', rfl⟩⟩, reads_bind.mpr ⟨args, t'' :: rest, hargs, ?_⟩⟩
    exact reads_bind.mpr ⟨t'', rest, reads_symbol.mpr ⟨hkind'', rfl⟩, reads_pure.mpr ⟨rfl, rfl⟩⟩

theorem reads_var {e : Expr} :
    Reads inner var tokens e rest ↔ ∃ t x, t.kind = .name x ∧ tokens = t :: rest ∧
      e = .var unnumbered x :=
  reads_ofName

/-! ## Heads of definitions -/

theorem reads_param {param : Param} :
    Reads inner Rule.param tokens param rest ↔ ∃ t x, t.kind = .name x ∧ tokens = t :: rest ∧
      param = { id := unnumbered, name := x } :=
  reads_ofName

theorem reads_nextParam_some {param : Param} :
    Reads inner nextParam tokens (some param) rest ↔ ∃ t t' x, t.kind = .symbol .comma ∧
      t'.kind = .name x ∧ tokens = t :: t' :: rest ∧ param = { id := unnumbered, name := x } := by
  unfold nextParam
  rw [reads_opened_some (by rfl)]
  constructor
  · rintro ⟨t, mid, hcomma, hparam⟩
    obtain ⟨hkind, rfl⟩ := reads_symbol.mp hcomma
    obtain ⟨t', x, hkind', rfl, rfl⟩ := reads_param.mp (reads_pure_some.mp hparam)
    exact ⟨t, t', x, hkind, hkind', rfl, rfl⟩
  · rintro ⟨t, t', x, hkind, hkind', rfl, rfl⟩
    exact ⟨t, t' :: rest, reads_symbol.mpr ⟨hkind, rfl⟩,
      reads_pure_some.mpr (reads_param.mpr ⟨t', x, hkind', rfl, rfl⟩)⟩

theorem reads_nextParam_none :
    Reads inner nextParam tokens none rest ↔
      Declines inner (symbol .comma) tokens ∧ tokens = rest :=
  reads_opened_pure_none (by rfl) fun _ => by rfl

theorem reads_params {ps : List Param} :
    Reads inner params tokens ps rest ↔
      ∃ first mid others, Reads inner Rule.param tokens first mid ∧
        Turns inner nextParam mid others rest ∧ ps = first :: others := by
  have hshort : ∀ ts param rest, Reads inner nextParam ts (some param) rest →
      rest.length < ts.length := by
    intro ts param rest h
    obtain ⟨t, t', x, -, -, rfl, -⟩ := reads_nextParam_some.mp h
    simp only [List.length_cons]
    omega
  exact reads_bind_repeated hshort

theorem reads_defineHead {f : String} {span : Text.Span} {ps : List Param} :
    Reads inner defineHead tokens ((f, span), ps) rest ↔
      ∃ t t' mid t'' u params', t.kind = .name f ∧ t.span = span ∧
        t'.kind = .symbol .openParen ∧ t''.kind = .symbol .closeParen ∧
        u.kind = .symbol .equals ∧ tokens = t :: t' :: mid ∧
        Reads inner params.optional mid params' (t'' :: u :: rest) ∧ ps = params'.getD [] := by
  unfold defineHead
  rw [reads_bind]
  constructor
  · rintro ⟨name, mid, hhead, h⟩
    obtain ⟨mid', t', hname, hopen⟩ := reads_skip.mp hhead
    obtain ⟨hkind', rfl⟩ := reads_symbol.mp hopen
    obtain ⟨params', mid'', hparams, hparens⟩ := reads_bind.mp h
    obtain ⟨t'', left, hclose, hend⟩ := reads_bind.mp hparens
    obtain ⟨hkind'', rfl⟩ := reads_symbol.mp hclose
    obtain ⟨u, rest', hequals, hpure⟩ := reads_bind.mp hend
    obtain ⟨hequal, rfl⟩ := reads_symbol.mp hequals
    obtain ⟨heq, rfl⟩ := reads_pure.mp hpure
    cases heq
    obtain ⟨t, hkind, hspan, rfl⟩ := reads_spannedName.mp hname
    exact ⟨t, t', mid, t'', u, params', hkind, hspan, hkind', hkind'', hequal, rfl, hparams, rfl⟩
  · rintro ⟨t, t', mid, t'', u, params', hkind, hspan, hkind', hkind'', hequal, rfl, hparams, rfl⟩
    refine ⟨(f, span), mid, reads_skip.mpr ⟨t' :: mid, t', ?_, reads_symbol.mpr ⟨hkind', rfl⟩⟩,
      reads_bind.mpr ⟨params', t'' :: u :: rest, hparams, reads_bind.mpr
        ⟨t'', u :: rest, reads_symbol.mpr ⟨hkind'', rfl⟩, reads_bind.mpr
          ⟨u, rest, reads_symbol.mpr ⟨hequal, rfl⟩, reads_pure.mpr ⟨rfl, rfl⟩⟩⟩⟩⟩
    exact reads_spannedName.mpr ⟨t, hkind, hspan, rfl⟩

/-- The head of a definition is only tried. -/
theorem settles_defineHead : Settles inner defineHead := by
  have hname : Settles inner spannedName := .token
  have hsymbol : ∀ s, Settles inner (symbol s) := fun _ => .token
  have hparam : Settles inner Rule.param := .bind (.bind hname fun _ => .pure _) fun _ => .pure _
  have hnext : Settles inner nextParam := by
    refine .bind (.optional (hsymbol _)) fun choice => ?_
    cases choice with
    | none => exact .pure _
    | some _ => exact .bind hparam fun _ => .pure _
  have hparams : Settles inner params :=
    .bind hparam fun _ => .bind (.repeated hnext) fun _ => .pure _
  have hhead : Settles inner (spannedName.skip (symbol .openParen)) :=
    .bind hname fun _ => .bind (hsymbol _) fun _ => .pure _
  exact .bind hhead fun _ => .bind (.optional hparams) fun _ =>
    .bind (hsymbol _) fun _ => .bind (hsymbol _) fun _ => .pure _

theorem reads_ownName {f : String} {span : Text.Span} {u : Unit} :
    Reads inner (ownName f span) tokens u rest ↔ Builtin.ofName? f = none ∧ tokens = rest := by
  unfold ownName
  cases Builtin.ofName? f with
  | none => simp
  | some b => simp [Reads, run]

/-! ## Statements -/

theorem reads_assign {s : Stmt} :
    Reads inner assign tokens s rest ↔ ∃ t t' mid x e, t.kind = .name x ∧
      t'.kind = .symbol .equals ∧ tokens = t :: t' :: mid ∧
      Reads inner expression mid e rest ∧ s = .assign unnumbered x e := by
  unfold assign
  rw [reads_bind]
  constructor
  · rintro ⟨x, mid, hhead, h⟩
    obtain ⟨mid', t', hname, hequals⟩ := reads_skip.mp hhead
    obtain ⟨t, hkind, rfl⟩ := reads_name.mp hname
    obtain ⟨hkind', rfl⟩ := reads_symbol.mp hequals
    obtain ⟨e, rest', hexpr, hpure⟩ := reads_bind.mp h
    obtain ⟨rfl, rfl⟩ := reads_pure.mp hpure
    exact ⟨t, t', mid, x, e, hkind, hkind', rfl, hexpr, rfl⟩
  · rintro ⟨t, t', mid, x, e, hkind, hkind', rfl, hexpr, rfl⟩
    refine ⟨x, mid, reads_skip.mpr ⟨t' :: mid, t', reads_name.mpr ⟨t, hkind, rfl⟩,
      reads_symbol.mpr ⟨hkind', rfl⟩⟩, reads_bind.mpr ⟨e, rest, hexpr, ?_⟩⟩
    exact reads_pure.mpr ⟨rfl, rfl⟩

theorem reads_expressionStatement {s : Stmt} :
    Reads inner expressionStatement tokens s rest ↔
      ∃ e, Reads inner expression tokens e rest ∧ s = .expr e :=
  reads_map

theorem reads_bracedBody {body : List Stmt} :
    Reads inner bracedBody tokens body rest ↔ ∃ t t' mid t'', t.kind = .symbol .openBrace ∧
      t'.kind = .newline ∧ t''.kind = .symbol .closeBrace ∧ tokens = t :: t' :: mid ∧
      Reads inner (statementList innerStatement) mid body (t'' :: rest) := by
  unfold bracedBody
  rw [reads_skip]
  constructor
  · rintro ⟨mid, t'', h, hclose⟩
    obtain ⟨t', mid', hopen, hbody⟩ := reads_skipLeft.mp h
    obtain ⟨t, mid'', hbrace, hnewline⟩ := reads_skipLeft.mp hopen
    obtain ⟨hkind, rfl⟩ := reads_symbol.mp hbrace
    obtain ⟨hkind', rfl⟩ := reads_newline.mp hnewline
    obtain ⟨hkind'', rfl⟩ := reads_symbol.mp hclose
    exact ⟨t, t', mid', t'', hkind, hkind', hkind'', rfl, hbody⟩
  · rintro ⟨t, t', mid, t'', hkind, hkind', hkind'', rfl, hbody⟩
    refine ⟨t'' :: rest, t'', reads_skipLeft.mpr ⟨t', mid, ?_, hbody⟩,
      reads_symbol.mpr ⟨hkind'', rfl⟩⟩
    exact reads_skipLeft.mpr
      ⟨t, t' :: mid, reads_symbol.mpr ⟨hkind, rfl⟩, reads_newline.mpr ⟨hkind', rfl⟩⟩

theorem reads_inlineBody {body : List Stmt} :
    Reads inner inlineBody tokens body rest ↔
      ∃ s, Reads inner innerStatement tokens s rest ∧ body = [s] := by
  unfold inlineBody
  rw [reads_map]
  simp only [reads_commit]

theorem reads_define {s : Stmt} :
    Reads inner define tokens s rest ↔ ∃ f span ps mid body,
      Reads inner defineHead tokens ((f, span), ps) mid ∧ Builtin.ofName? f = none ∧
      Reads inner (bracedBody.orElse inlineBody) mid body rest ∧
      s = .define unnumbered f { id := unnumbered, params := ps } unnumbered body := by
  unfold define
  rw [reads_bind]
  constructor
  · rintro ⟨⟨⟨f, span⟩, ps⟩, mid, hhead, h⟩
    obtain ⟨_, mid', hown, h⟩ := reads_bind.mp h
    obtain ⟨hf, rfl⟩ := reads_ownName.mp hown
    obtain ⟨body, rest', hbody, hpure⟩ := reads_bind.mp h
    obtain ⟨rfl, rfl⟩ := reads_pure.mp hpure
    exact ⟨f, span, ps, mid, body, hhead, hf, hbody, rfl⟩
  · rintro ⟨f, span, ps, mid, body, hhead, hf, hbody, rfl⟩
    refine ⟨((f, span), ps), mid, hhead, reads_bind.mpr ⟨(), mid, reads_ownName.mpr ⟨hf, rfl⟩, ?_⟩⟩
    exact reads_bind.mpr ⟨body, rest, hbody, reads_pure.mpr ⟨rfl, rfl⟩⟩

/-! ## Statement lists -/

section
variable {stmt : Rule Stmt}

theorem reads_nextStatement_some {s : Stmt} :
    Reads inner (nextStatement stmt) tokens (some s) rest ↔
      ∃ t mid, t.kind = .newline ∧ tokens = t :: mid ∧ Reads inner stmt mid s rest := by
  unfold nextStatement
  rw [reads_opened_some (by rfl)]
  constructor
  · rintro ⟨t, mid, hnewline, hs⟩
    obtain ⟨hkind, rfl⟩ := reads_newline.mp hnewline
    exact ⟨t, mid, hkind, rfl, reads_optional_some.mp hs⟩
  · rintro ⟨t, mid, hkind, rfl, hs⟩
    exact ⟨t, mid, reads_newline.mpr ⟨hkind, rfl⟩, reads_optional_some.mpr hs⟩

/-- A statement list ends at the last statement or at the line end behind it. -/
theorem reads_nextStatement_none :
    Reads inner (nextStatement stmt) tokens none rest ↔
      (Declines inner newline tokens ∧ tokens = rest) ∨
        ∃ t, t.kind = .newline ∧ tokens = t :: rest ∧ Declines inner stmt rest := by
  unfold nextStatement
  rw [reads_opened_none (by rfl)]
  refine or_congr_right ?_
  constructor
  · rintro ⟨t, mid, hnewline, hs⟩
    obtain ⟨hkind, rfl⟩ := reads_newline.mp hnewline
    obtain ⟨hdeclines, rfl⟩ := reads_optional_none.mp hs
    exact ⟨t, hkind, rfl, hdeclines⟩
  · rintro ⟨t, hkind, rfl, hdeclines⟩
    exact ⟨t, rest, reads_newline.mpr ⟨hkind, rfl⟩, reads_optional_none.mpr ⟨hdeclines, rfl⟩⟩

theorem reads_statementList {depth : Nat} {ss : List Stmt} :
    Reads (innerTo depth) (statementList stmt) tokens ss rest ↔
      (Declines (innerTo depth) stmt tokens ∧ tokens = rest ∧ ss = []) ∨
        ∃ first mid others, Reads (innerTo depth) stmt tokens first mid ∧
          Turns (innerTo depth) (nextStatement stmt) mid others rest ∧ ss = first :: others := by
  have hshort : ∀ ts s rest, Reads (innerTo depth) (nextStatement stmt) ts (some s) rest →
      rest.length < ts.length := by
    intro ts s rest h
    obtain ⟨t, mid, -, rfl, hs⟩ := reads_nextStatement_some.mp h
    exact Nat.lt_succ_of_le hs.length_le
  unfold statementList
  rw [reads_bind]
  constructor
  · rintro ⟨choice, mid, hfirst, h⟩
    cases choice with
    | none =>
      obtain ⟨hdeclines, rfl⟩ := reads_optional_none.mp hfirst
      obtain ⟨rfl, rfl⟩ := reads_pure.mp h
      exact .inl ⟨hdeclines, rfl, rfl⟩
    | some first =>
      obtain ⟨others, rest', hothers, hpure⟩ := reads_bind.mp h
      obtain ⟨rfl, rfl⟩ := reads_pure.mp hpure
      exact .inr ⟨first, mid, others, reads_optional_some.mp hfirst,
        (reads_repeated hshort).mp hothers, rfl⟩
  · rintro (⟨hdeclines, rfl, rfl⟩ | ⟨first, mid, others, hfirst, hothers, rfl⟩)
    · exact ⟨none, tokens, reads_optional_none.mpr ⟨hdeclines, rfl⟩, reads_pure.mpr ⟨rfl, rfl⟩⟩
    · refine ⟨some first, mid, reads_optional_some.mpr hfirst, reads_bind.mpr ?_⟩
      exact ⟨others, rest, (reads_repeated hshort).mpr hothers, reads_pure.mpr ⟨rfl, rfl⟩⟩

end

end Rule
end Abacus
