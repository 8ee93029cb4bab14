import Abacus.Proofs.Grammar.Parts

/-!
# What the rules read is derivable

A rule that reads something reads a closed phrase of the grammar. The rule of a chain reads on as
long as an operator of its own follows, so what it leaves begins with none of them; an operand of a
minus sign is a chain of the lowest level, so no operator at all follows it.

The induction is on the depth to which inner phrases may nest: what holds of the inner phrases of a
rule holds of the rule.
-/
namespace Abacus.Rule

variable {tokens rest : List Token}

open Grammar (Expression Arguments Statement Statements NoOperator)

/-- No operator of precedence `k` or above comes first. -/
def NoneFrom (k : Nat) (text : List TokenKind) : Prop :=
  ∀ (op : Operator) (rest : List TokenKind), k ≤ op.precedence → text ≠ .symbol op.sign :: rest

theorem noOperator_of_noneFrom {text : List TokenKind} (h : NoneFrom 1 text) : NoOperator text :=
  fun op rest => h op rest op.one_le_precedence

/-- The rule reads closed expressions of level `k`, and no operator of that level is left. -/
def Sound (inner : Inner) (k : Nat) (rule : Rule Expr) : Prop :=
  ∀ ⦃tokens e rest⦄, Reads inner rule tokens e rest →
    Expression .closed k (kinds tokens) (kinds rest) e ∧ NoneFrom k (kinds rest)

theorem turns_chainLink_sound {k depth : Nat} (hk : 1 ≤ k) (hk' : k ≤ 3) {operand : Rule Expr}
    {what : String} (hoperand : Sound (innerTo depth) (k + 1) operand) {mid : List Token}
    {links : List (Operator × Expr)}
    (h : Turns (innerTo depth) (chainLink operand (operatorRule k) what) mid links rest)
    {text : List TokenKind} {first : Expr}
    (hfirst : Expression .closed (k + 1) text (kinds mid) first)
    (hnone : NoneFrom (k + 1) (kinds mid)) :
    Expression .closed k text (kinds rest) (nestRight first links) ∧ NoneFrom k (kinds rest) := by
  induction h generalizing text first with
  | stop h =>
    obtain ⟨hdeclines, rfl⟩ := reads_chainLink_none.mp h
    refine ⟨.operand hfirst, fun op rest hop heq => ?_⟩
    rcases Nat.lt_or_eq_of_le hop with hlt | heq'
    · exact hnone op rest hlt heq
    · obtain ⟨t, ts, rfl, hkind, -⟩ := kinds_eq_cons.mp heq
      exact (declines_operatorRule hk hk').mp hdeclines op heq'.symm t ts rfl hkind
  | @turn _ _ _ link _ h _ ih =>
    obtain ⟨op, next⟩ := link
    obtain ⟨_, hops, hnext⟩ := reads_chainLink_some.mp h
    obtain ⟨hop, t, hkind, rfl⟩ := (reads_operatorRule hk hk').mp hops
    rw [kinds_cons, hkind] at hfirst
    obtain ⟨hexpr, hnone⟩ := hoperand hnext
    obtain ⟨hrest, hnone⟩ := ih hexpr hnone
    exact ⟨.chain op hop hfirst hrest, hnone⟩

theorem Sound.level {k depth : Nat} (hk : 1 ≤ k) (hk' : k ≤ 3)
    (hoperand : Sound (innerTo depth) (k + 1) (levelRule (k + 1))) :
    Sound (innerTo depth) k (levelRule k) := by
  intro tokens e rest h
  obtain ⟨what, hreads⟩ := reads_levelRule depth hk hk'
  obtain ⟨first, mid, links, hfirst, hlinks, rfl⟩ := hreads.mp h
  obtain ⟨hexpr, hnone⟩ := hoperand hfirst
  exact turns_chainLink_sound hk hk' hoperand hlinks hexpr hnone

section
variable {depth : Nat} (hinner : Sound (innerTo depth) 1 innerExpression)
include hinner

theorem turns_nextArgument_sound {mid : List Token} {others : List Expr}
    (h : Turns (innerTo depth) nextArgument mid others rest) {text : List TokenKind} {first : Expr}
    (hfirst : Expression .closed 1 text (kinds mid) first) :
    Arguments .closed text (kinds rest) (first :: others) := by
  induction h generalizing text first with
  | stop h =>
    obtain ⟨-, rfl⟩ := reads_nextArgument_none.mp h
    exact .one hfirst
  | turn h _ ih =>
    obtain ⟨t, _, hkind, rfl, harg⟩ := reads_nextArgument_some.mp h
    rw [kinds_cons, hkind] at hfirst
    exact .more hfirst (ih (hinner harg).1)

theorem sound_value : Sound (innerTo depth) 4 value := by
  intro tokens e rest h
  have hnone : NoneFrom 4 (kinds rest) := fun op _ hop =>
    absurd (Nat.le_trans hop op.precedence_le_three) (by decide)
  refine ⟨?_, hnone⟩
  unfold value at h
  simp only [reads_label, reads_orElse] at h
  rcases h with h | ⟨-, h | ⟨-, h | ⟨-, h | ⟨-, h | ⟨-, h⟩⟩⟩⟩⟩
  · obtain ⟨t, mid, t', hkind, hkind', rfl, hoperand⟩ := reads_grouped.mp h
    have hexpr := (hinner hoperand).1
    rw [kinds_cons, hkind'] at hexpr
    rw [kinds_cons, hkind]
    exact .grouped hexpr
  · obtain ⟨t, mid, operand, hkind, rfl, hoperand, rfl⟩ := reads_negated.mp h
    obtain ⟨hexpr, hnone⟩ := hinner hoperand
    rw [kinds_cons, hkind]
    exact .negated hexpr (noOperator_of_noneFrom hnone)
  · obtain ⟨t, t', v, source, x, hkind, hkind', rfl, rfl⟩ := reads_juxtaposed.mp h
    rw [kinds_cons, kinds_cons, hkind, hkind']
    exact .juxtaposed v source x _
  · obtain ⟨t, t', mid, t'', f, args, hkind, hkind', hkind'', rfl, hargs, rfl⟩ := reads_call.mp h
    rw [kinds_cons, kinds_cons, hkind, hkind']
    cases args with
    | none =>
      obtain ⟨-, rfl⟩ := reads_optional_none.mp hargs
      rw [kinds_cons, hkind'']
      exact .emptyCall f _
    | some args =>
      obtain ⟨first, mid', others, hfirst, hothers, rfl⟩ :=
        reads_arguments.mp (reads_optional_some.mp hargs)
      have hargs := turns_nextArgument_sound hinner hothers (hinner hfirst).1
      rw [kinds_cons, hkind''] at hargs
      exact .call f hargs
  · obtain ⟨t, x, hkind, rfl, rfl⟩ := reads_var.mp h
    rw [kinds_cons, hkind]
    exact .var x _
  · obtain ⟨t, v, source, hkind, rfl, rfl⟩ := reads_number.mp h
    rw [kinds_cons, hkind]
    exact .number v source _

end

theorem sound_expression (depth : Nat) : Sound (innerTo depth) 1 expression := by
  have hlevels : ∀ {depth}, Sound (innerTo depth) 1 innerExpression →
      Sound (innerTo depth) 1 expression := by
    intro depth hinner
    have hpower : Sound (innerTo depth) 3 power :=
      Sound.level (k := 3) (by decide) (by decide) (sound_value hinner)
    have hterm : Sound (innerTo depth) 2 term := Sound.level (k := 2) (by decide) (by decide) hpower
    exact Sound.level (k := 1) (by decide) (by decide) hterm
  induction depth with
  | zero => exact hlevels fun _ _ _ h => absurd h not_reads_inner_zero
  | succ depth ih => exact hlevels fun _ _ _ h => ih (reads_inner.mp h)

/-! ## Statements -/

theorem kinds_of_turns_nextParam {inner : Inner} {mid : List Token} {others : List Param}
    (h : Turns inner nextParam mid others rest) :
    ∃ xs : List String, others = xs.map (fun x => { id := unnumbered, name := x }) ∧
      kinds mid = (xs.flatMap fun x => [.symbol .comma, .name x]) ++ kinds rest := by
  induction h with
  | stop h =>
    obtain ⟨-, rfl⟩ := reads_nextParam_none.mp h
    exact ⟨[], rfl, rfl⟩
  | turn h _ ih =>
    obtain ⟨t, t', x, hkind, hkind', rfl, rfl⟩ := reads_nextParam_some.mp h
    obtain ⟨xs, rfl, hxs⟩ := ih
    refine ⟨x :: xs, rfl, ?_⟩
    rw [kinds_cons, kinds_cons, hkind, hkind', hxs]
    rfl

theorem kinds_of_reads_defineHead {inner : Inner} {f : String} {span : Text.Span} {ps : List Param}
    (h : Reads inner defineHead tokens ((f, span), ps) rest) :
    ∃ xs : List String, kinds tokens = Grammar.defineHead f xs (kinds rest) ∧
      { id := unnumbered, params := ps } = Grammar.paramList xs := by
  obtain ⟨t, t', mid, t'', u, params', hkind, -, hkind', hkind'', hequal, rfl, hparams, rfl⟩ :=
    reads_defineHead.mp h
  cases params' with
  | none =>
    obtain ⟨-, rfl⟩ := reads_optional_none.mp hparams
    refine ⟨[], ?_, rfl⟩
    simp only [kinds_cons, hkind, hkind', hkind'', hequal]
    rfl
  | some ps =>
    obtain ⟨first, mid', others, hfirst, hothers, rfl⟩ :=
      reads_params.mp (reads_optional_some.mp hparams)
    obtain ⟨t₁, x, hkind₁, rfl, rfl⟩ := reads_param.mp hfirst
    obtain ⟨xs, rfl, hxs⟩ := kinds_of_turns_nextParam hothers
    refine ⟨x :: xs, ?_, rfl⟩
    simp only [kinds_cons, hkind, hkind', hkind₁, hxs, hkind'', hequal, Grammar.defineHead,
      Grammar.paramNames_cons, List.cons_append]

theorem turns_nextStatement_sound {inner : Inner} {stmt : Rule Stmt}
    (hstmt : ∀ {tokens s rest}, Reads inner stmt tokens s rest →
      Statement .closed (kinds tokens) (kinds rest) s) {mid : List Token} {others : List Stmt}
    (h : Turns inner (nextStatement stmt) mid others rest) {text : List TokenKind} {first : Stmt}
    (hfirst : Statement .closed text (kinds mid) first) :
    Statements .closed text (kinds rest) (first :: others) := by
  induction h generalizing text first with
  | stop h =>
    rcases reads_nextStatement_none.mp h with ⟨-, rfl⟩ | ⟨t, hkind, rfl, -⟩
    · exact .last hfirst
    · rw [kinds_cons, hkind] at hfirst
      exact .more hfirst (.empty _)
  | turn h _ ih =>
    obtain ⟨t, _, hkind, rfl, hs⟩ := reads_nextStatement_some.mp h
    rw [kinds_cons, hkind] at hfirst
    exact .more hfirst (ih (hstmt hs))

theorem statementList_sound {depth : Nat} {stmt : Rule Stmt}
    (hstmt : ∀ {tokens s rest}, Reads (innerTo depth) stmt tokens s rest →
      Statement .closed (kinds tokens) (kinds rest) s) {ss : List Stmt}
    (h : Reads (innerTo depth) (statementList stmt) tokens ss rest) :
    Statements .closed (kinds tokens) (kinds rest) ss := by
  rcases reads_statementList.mp h with ⟨-, rfl, rfl⟩ | ⟨first, mid, others, hfirst, hothers, rfl⟩
  · exact .empty _
  · exact turns_nextStatement_sound hstmt hothers (hstmt hfirst)

theorem define_sound {depth : Nat}
    (hstmt : ∀ {tokens s rest}, Reads (innerTo depth) innerStatement tokens s rest →
      Statement .closed (kinds tokens) (kinds rest) s) {s : Stmt}
    (h : Reads (innerTo depth) define tokens s rest) :
    Statement .closed (kinds tokens) (kinds rest) s := by
  obtain ⟨f, span, ps, mid, body, hhead, hf, hbody, rfl⟩ := reads_define.mp h
  obtain ⟨xs, hkinds, hps⟩ := kinds_of_reads_defineHead hhead
  rw [hkinds, hps]
  rcases reads_orElse.mp hbody with hbraced | ⟨-, hinline⟩
  · obtain ⟨t, t', mid', t'', hkind, hkind', hkind'', rfl, hlist⟩ := reads_bracedBody.mp hbraced
    have hbody := statementList_sound hstmt hlist
    rw [kinds_cons, hkind''] at hbody
    rw [kinds_cons, kinds_cons, hkind, hkind']
    exact .defineBlock f xs hf hbody
  · obtain ⟨s, hs, rfl⟩ := reads_inlineBody.mp hinline
    exact .define f xs hf (hstmt hs)

theorem statement_sound {depth : Nat} {s : Stmt}
    (h : Reads (innerTo depth) statement tokens s rest) :
    Statement .closed (kinds tokens) (kinds rest) s := by
  have hchoices : ∀ {depth tokens s rest},
      (∀ {tokens s rest}, Reads (innerTo depth) innerStatement tokens s rest →
        Statement .closed (kinds tokens) (kinds rest) s) →
      Reads (innerTo depth) statement tokens s rest →
        Statement .closed (kinds tokens) (kinds rest) s := by
    intro depth tokens s rest hinner h
    unfold statement at h
    simp only [reads_orElse] at h
    rcases h with hdefine | ⟨-, hassign | ⟨-, hexpr⟩⟩
    · exact define_sound hinner hdefine
    · obtain ⟨t, t', mid, x, e, hkind, hkind', rfl, he, rfl⟩ := reads_assign.mp hassign
      rw [kinds_cons, kinds_cons, hkind, hkind']
      exact .assign x (sound_expression depth he).1
    · obtain ⟨e, he, rfl⟩ := reads_expressionStatement.mp hexpr
      exact .expr (sound_expression depth he).1
  induction depth generalizing tokens s rest with
  | zero => exact hchoices (fun h => absurd h not_reads_inner_zero) h
  | succ depth ih => exact hchoices (fun h => ih (reads_inner.mp h)) h

theorem stmts_sound {depth : Nat} {ss : List Stmt} (h : Reads (innerTo depth) stmts tokens ss rest) :
    Statements .closed (kinds tokens) (kinds rest) ss :=
  statementList_sound statement_sound h

end Abacus.Rule
