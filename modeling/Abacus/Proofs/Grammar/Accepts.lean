import Abacus.Proofs.Grammar.Complete

/-!
# The reader accepts exactly the grammar

A closed statement list is read with the tree of its derivation (`Statements.reads`), and what is
read is closed (`stmts_sound`). So a text has at most one closed derivation, and the reader accepts
exactly the texts that have any derivation at all (`Program.ofTokens_correct`).

Three kinds of statements may start with the same tokens, and the head of a definition can be long.
What tells them apart is what stands behind the longest front that could be an expression (`scan`):
an expression ends there, a definition or an assignment has its equals sign there.
-/
namespace Abacus

open Grammar Rule

/-! ## Where the equals sign is -/

namespace Grammar

theorem scan_defineHead (f : String) (params : List String) (text : List TokenKind) :
    scan 0 (defineHead f params text) = .symbol .equals :: text := by
  have hothers : ∀ (xs : List String) (rest : List TokenKind),
      scan 1 ((xs.flatMap fun x => [.symbol .comma, .name x]) ++ rest) = scan 1 rest := by
    intro xs rest
    induction xs with
    | nil => rfl
    | cons x xs ih => exact ih
  cases params with
  | nil => rfl
  | cons x xs =>
    unfold defineHead
    rw [paramNames_cons]
    exact hothers xs _

/-- An expression has no equals sign behind it. -/
theorem Expression.scan_ne_equals {extent : Extent} {text rest : List TokenKind} {e : Expr}
    (h : Expression extent 1 text rest e) (hrest : Follow 1 rest) (text' : List TokenKind) :
    scan 0 text ≠ .symbol .equals :: text' := by
  rw [h.scan_eq 0, hrest.scan_eq]
  rintro rfl
  exact hrest.head_ne.2.2 rfl

/-- A statement does not start with a brace. -/
theorem Statement.head_ne_openBrace {extent : Extent} {text rest : List TokenKind} {s : Stmt}
    (h : Statement extent text rest s) (text' : List TokenKind) :
    text ≠ .symbol .openBrace :: text' := by
  rintro rfl
  cases h with
  | expr he =>
    have hle := length_scan_le 0 rest
    rw [← he.scan_eq 0] at hle
    exact Nat.not_le.mpr he.length_lt hle

end Grammar

/-! ## Heads of definitions -/

namespace Rule

variable {inner : Inner} {tokens rest : List Token}

theorem turns_nextParam_of_kinds (inner : Inner) {text : List TokenKind} :
    ∀ (xs : List String) {mid : List Token},
      kinds mid = (xs.flatMap fun x => [.symbol .comma, .name x]) ++ .symbol .closeParen :: text →
      ∃ left, kinds left = .symbol .closeParen :: text ∧
        Turns inner nextParam mid (xs.map fun x => { id := unnumbered, name := x }) left
  | [], mid, hmid => by
    refine ⟨mid, hmid, .stop (reads_nextParam_none.mpr ⟨declines_symbol.mpr ?_, rfl⟩)⟩
    rintro t ts rfl
    rw [(List.cons.inj hmid).1]
    rintro ⟨⟩
  | x :: xs, mid, hmid => by
    obtain ⟨t, mid, rfl, hkind, hmid⟩ := kinds_eq_cons.mp hmid
    obtain ⟨t', mid, rfl, hkind', hmid⟩ := kinds_eq_cons.mp hmid
    obtain ⟨left, hleft, hturns⟩ := turns_nextParam_of_kinds inner xs hmid
    exact ⟨left, hleft,
      .turn (reads_nextParam_some.mpr ⟨t, t', x, hkind, hkind', rfl, rfl⟩) hturns⟩

theorem reads_params_of_kinds (inner : Inner) {xs : List String} {text : List TokenKind}
    (h : kinds tokens = paramNames xs ++ .symbol .closeParen :: text) :
    ∃ left params', kinds left = .symbol .closeParen :: text ∧
      Reads inner params.optional tokens params' left ∧ params'.getD [] = (paramList xs).params := by
  cases xs with
  | nil =>
    refine ⟨tokens, none, h, reads_optional_none.mpr ⟨?_, rfl⟩, rfl⟩
    refine declines_bind.mpr (.inl (declines_bind.mpr (.inl (declines_name.mpr ?_))))
    rintro t ts rfl x
    rw [(List.cons.inj h).1]
    rintro ⟨⟩
  | cons x xs =>
    rw [paramNames_cons] at h
    obtain ⟨t, mid, rfl, hkind, hmid⟩ := kinds_eq_cons.mp h
    obtain ⟨left, hleft, hturns⟩ := turns_nextParam_of_kinds inner xs hmid
    refine ⟨left, _, hleft, reads_optional_some.mpr (reads_params.mpr ?_), rfl⟩
    exact ⟨_, mid, _, reads_param.mpr ⟨t, x, hkind, rfl, rfl⟩, hturns, rfl⟩

theorem reads_defineHead_of_kinds (inner : Inner) {f : String} {xs : List String}
    {text : List TokenKind} (h : kinds tokens = Grammar.defineHead f xs text) :
    ∃ span left, kinds left = text ∧
      Reads inner defineHead tokens ((f, span), (paramList xs).params) left := by
  obtain ⟨t, ts, rfl, hkind, hts⟩ := kinds_eq_cons.mp h
  obtain ⟨t', ts, rfl, hkind', hts⟩ := kinds_eq_cons.mp hts
  obtain ⟨left, params', hleft, hparams, hget⟩ := reads_params_of_kinds inner hts
  obtain ⟨t'', left, rfl, hkind'', hleft⟩ := kinds_eq_cons.mp hleft
  obtain ⟨u, left, rfl, hequal, hleft⟩ := kinds_eq_cons.mp hleft
  exact ⟨t.span, left, hleft, reads_defineHead.mpr
    ⟨t, t', ts, t'', u, params', hkind, rfl, hkind', hkind'', hequal, rfl, hparams, hget.symm⟩⟩

/-! ## Statements that are not due -/

/-- What is derivable as an expression is no definition. -/
theorem declines_define {text : List TokenKind} {extent : Extent} {e : Expr}
    (h : Expression extent 1 (kinds tokens) text e) (hfollow : Follow 1 text) :
    Declines inner define tokens := by
  rcases settles_defineHead tokens with ⟨⟨⟨f, span⟩, ps⟩, mid, hhead⟩ | hdeclines
  · obtain ⟨xs, hkinds, -⟩ := kinds_of_reads_defineHead hhead
    have hscan := scan_defineHead f xs (kinds mid)
    rw [← hkinds] at hscan
    exact absurd hscan (h.scan_ne_equals hfollow _)
  · exact declines_bind.mpr (.inl hdeclines)

/-- What is derivable as an expression is no assignment. -/
theorem declines_assign {text : List TokenKind} {extent : Extent} {e : Expr}
    (h : Expression extent 1 (kinds tokens) text e) (hfollow : Follow 1 text) :
    Declines inner assign tokens := by
  have hsettles : Settles inner (name.skip (symbol .equals)) :=
    .bind (.bind .token fun _ => .pure _) fun _ => .bind .token fun _ => .pure _
  rcases hsettles tokens with ⟨x, mid, hreads⟩ | hdeclines
  · obtain ⟨mid', t', hname, hequals⟩ := reads_skip.mp hreads
    obtain ⟨hkind', rfl⟩ := reads_symbol.mp hequals
    obtain ⟨t, hkind, rfl⟩ := reads_name.mp hname
    rw [kinds_cons, kinds_cons, hkind, hkind'] at h
    exact absurd rfl (h.scan_ne_equals hfollow (kinds mid))
  · exact declines_bind.mpr (.inl hdeclines)

/-- An assignment is no definition: an equals sign stands where the bracket would. -/
theorem declines_define_of_assign {t t' : Token} (hkind' : t'.kind = .symbol .equals) :
    Declines inner define (t :: t' :: rest) := by
  have hsettles : Settles inner (spannedName.skip (symbol .openParen)) :=
    .bind .token fun _ => .bind .token fun _ => .pure _
  rcases hsettles (t :: t' :: rest) with ⟨name, mid, hreads⟩ | hdeclines
  · obtain ⟨mid', t₁, hname, hopen⟩ := reads_skip.mp hreads
    obtain ⟨hkind₁, rfl⟩ := reads_symbol.mp hopen
    obtain ⟨t₂, -, -, heq⟩ := reads_spannedName.mp hname
    cases heq
    rw [hkind'] at hkind₁
    cases hkind₁
  · exact declines_bind.mpr (.inl (declines_bind.mpr (.inl hdeclines)))

end Rule

/-! ## Statements -/

namespace Rule

variable {α : Type} {inner inner' : Inner} {rule rule' : Rule α} {tokens rest : List Token}

theorem Reads.of_run_eq {a : α} (hrun : rule'.run inner' tokens = rule.run inner tokens)
    (h : Reads inner rule tokens a rest) : Reads inner' rule' tokens a rest := by
  unfold Reads at h ⊢
  rw [hrun, h]

theorem Declines.of_run_eq (hrun : rule'.run inner' tokens = rule.run inner tokens)
    (h : Declines inner rule tokens) : Declines inner' rule' tokens := by
  unfold Declines at h ⊢
  rw [hrun]
  exact h

end Rule

namespace Grammar

/-- The end of a text or of a block in it. -/
def BlockEnd (rest : List TokenKind) : Prop :=
  rest = [] ∨ ∃ rest', rest = .symbol .closeBrace :: rest'

theorem BlockEnd.follow {rest : List TokenKind} (h : BlockEnd rest) : Follow 1 rest := by
  rcases h with rfl | ⟨rest', rfl⟩
  · exact .nil
  · exact .closeBrace rest'

theorem BlockEnd.closes {tokens : List Token} (h : BlockEnd (kinds tokens)) : Closes tokens := by
  rintro t ts rfl
  rcases h with h | ⟨rest', h⟩
  · cases h
  · exact .inr (List.cons.inj h).1

theorem BlockEnd.declines_newline {inner : Inner} {tokens : List Token}
    (h : BlockEnd (kinds tokens)) : Declines inner newline tokens :=
  Rule.declines_newline.mpr (h.closes.ne .newline nofun nofun)

mutual

/-- A closed statement that ends where one may end is read. -/
theorem Statement.reads : ∀ {text rest : List TokenKind} {s : Stmt},
    Statement .closed text rest s → Follow 1 rest →
      ∀ {depth : Nat} {tokens : List Token}, kinds tokens = text → tokens.length ≤ depth →
        ∃ left, kinds left = rest ∧ Reads (innerTo depth) statement tokens s left
  | _, _, _, .define f params hf h, hfollow, depth, tokens, htokens, hdepth => by
    obtain ⟨span, mid, hmid, hhead⟩ := reads_defineHead_of_kinds (innerTo depth) htokens
    have hlength := length_lt_defineHead f params (kinds mid)
    rw [hmid, ← htokens, ← hmid, length_kinds, length_kinds] at hlength
    obtain ⟨d, rfl⟩ : ∃ d, depth = d + 1 := ⟨depth - 1, by omega⟩
    have hd : mid.length ≤ d := by omega
    obtain ⟨left, hleft, hreads⟩ := h.reads hfollow hmid hd
    have hbraced : Declines (innerTo (d + 1)) bracedBody mid := by
      refine declines_bind.mpr (.inl (declines_bind.mpr (.inl (declines_bind.mpr (.inl ?_)))))
      refine declines_symbol.mpr ?_
      rintro t ts rfl hkind
      rw [kinds_cons, hkind] at hmid
      exact h.head_ne_openBrace _ hmid.symm
    have hbody := reads_inlineBody.mpr ⟨_, reads_inner.mpr hreads, rfl⟩
    exact ⟨left, hleft, reads_orElse.mpr (.inl (reads_define.mpr
      ⟨f, span, _, mid, _, hhead, hf, reads_orElse.mpr (.inr ⟨hbraced, hbody⟩), rfl⟩))⟩
  | _, _, _, .defineBlock f params hf h, _, depth, tokens, htokens, hdepth => by
    obtain ⟨span, mid, hmid, hhead⟩ := reads_defineHead_of_kinds (innerTo depth) htokens
    have hlength := length_lt_defineHead f params (kinds mid)
    rw [hmid, ← htokens, ← hmid, length_kinds, length_kinds] at hlength
    obtain ⟨d, rfl⟩ : ∃ d, depth = d + 1 := ⟨depth - 1, by omega⟩
    obtain ⟨t, mid, rfl, hkind, hmid⟩ := kinds_eq_cons.mp hmid
    obtain ⟨t', mid, rfl, hkind', hmid⟩ := kinds_eq_cons.mp hmid
    have hd : mid.length ≤ d := by
      simp only [List.length_cons] at hlength
      omega
    obtain ⟨left, hleft, hreads⟩ := h.reads (.inr ⟨_, rfl⟩)
      (fun ts => show innerStatement.run (innerTo (d + 1)) ts = _ from rfl) hmid hd
    obtain ⟨t'', left, rfl, hkind'', hleft⟩ := kinds_eq_cons.mp hleft
    have hbody := reads_bracedBody.mpr ⟨t, t', mid, t'', hkind, hkind', hkind'', rfl, hreads⟩
    exact ⟨left, hleft, reads_orElse.mpr (.inl (reads_define.mpr
      ⟨f, span, _, _, _, hhead, hf, reads_orElse.mpr (.inl hbody), rfl⟩))⟩
  | _, _, _, .assign x h, hfollow, depth, _, htokens, hdepth => by
    obtain ⟨t, ts, rfl, hkind, hts⟩ := kinds_eq_cons.mp htokens
    obtain ⟨t', ts, rfl, hkind', hts⟩ := kinds_eq_cons.mp hts
    have hd : ts.length ≤ depth := Nat.le_of_succ_le (Nat.le_of_succ_le hdepth)
    obtain ⟨left, hleft, hreads⟩ := h.reads hfollow hts hd
    refine ⟨left, hleft, reads_orElse.mpr (.inr ⟨declines_define_of_assign hkind', ?_⟩)⟩
    exact reads_orElse.mpr (.inl (reads_assign.mpr
      ⟨t, t', ts, x, _, hkind, hkind', rfl, hreads, rfl⟩))
  | _, _, _, .expr h, hfollow, _, _, htokens, hdepth => by
    obtain ⟨left, hleft, hreads⟩ := h.reads hfollow htokens hdepth
    rw [← htokens] at h
    refine ⟨left, hleft, reads_orElse.mpr (.inr ⟨declines_define h hfollow, ?_⟩)⟩
    refine reads_orElse.mpr (.inr ⟨declines_assign h hfollow, ?_⟩)
    exact reads_expressionStatement.mpr ⟨_, hreads, rfl⟩

/-- A closed statement list that ends where one may end is read, also by a rule that goes one level
further in for its statements. -/
theorem Statements.reads : ∀ {text rest : List TokenKind} {ss : List Stmt},
    Statements .closed text rest ss → BlockEnd rest →
      ∀ {depth depth' : Nat} {stmt : Rule Stmt} {tokens : List Token},
        (∀ ts, stmt.run (innerTo depth') ts = statement.run (innerTo depth) ts) →
        kinds tokens = text → tokens.length ≤ depth →
          ∃ left, kinds left = rest ∧ Reads (innerTo depth') (statementList stmt) tokens ss left
  | _, _, _, .empty rest, hrest, _, _, _, tokens, hrun, htokens, _ => by
    rw [← htokens] at hrest
    have hdeclines := (declines_statement hrest.closes).of_run_eq (hrun tokens)
    exact ⟨tokens, htokens, reads_statementList.mpr (.inl ⟨hdeclines, rfl, rfl⟩)⟩
  | _, _, _, .last h, hrest, _, depth', stmt, tokens, hrun, htokens, hdepth => by
    obtain ⟨left, hleft, hreads⟩ := h.reads hrest.follow htokens hdepth
    rw [← hleft] at hrest
    have hstop : Reads (innerTo depth') (nextStatement stmt) left none left :=
      reads_nextStatement_none.mpr (.inl ⟨hrest.declines_newline, rfl⟩)
    exact ⟨left, hleft, reads_statementList.mpr
      (.inr ⟨_, left, [], hreads.of_run_eq (hrun tokens), .stop hstop, rfl⟩)⟩
  | _, _, _, .more h hmore, hrest, _, _, _, tokens, hrun, htokens, hdepth => by
    obtain ⟨mid, hmid, hfirst⟩ := h.reads (.newline _) htokens hdepth
    obtain ⟨t, mid, rfl, hkind, hmid⟩ := kinds_eq_cons.mp hmid
    have hlength := Nat.le_trans (Nat.le_of_succ_le hfirst.length_le) hdepth
    obtain ⟨left, hleft, hreads⟩ := hmore.reads hrest hrun hmid hlength
    refine ⟨left, hleft, reads_statementList.mpr (.inr ?_)⟩
    rcases reads_statementList.mp hreads with
      ⟨hdeclines, rfl, rfl⟩ | ⟨second, mid', others, hsecond, hothers, rfl⟩
    · have hstop := reads_nextStatement_none.mpr (.inr ⟨t, hkind, rfl, hdeclines⟩)
      exact ⟨_, t :: mid, [], hfirst.of_run_eq (hrun tokens), .stop hstop, rfl⟩
    · have hturn := reads_nextStatement_some.mpr ⟨t, mid, hkind, rfl, hsecond⟩
      exact ⟨_, t :: mid, second :: others, hfirst.of_run_eq (hrun tokens),
        .turn hturn hothers, rfl⟩

end

end Grammar

/-! ## Whole texts -/

theorem Rule.readAll_eq_ok {tokens : List Token} {ss : List Stmt} :
    (Rule.readAll tokens).result = .ok ss ↔ Statements .closed (kinds tokens) [] ss := by
  constructor
  · intro h
    unfold Rule.readAll at h
    split at h
    next => cases h
    next ss' hread =>
      cases h
      exact stmts_sound hread
    next => cases h
  · intro h
    obtain ⟨left, hleft, hreads⟩ := h.reads (.inl rfl) (fun _ => rfl) rfl (Nat.le_refl tokens.length)
    obtain rfl : left = [] := List.map_eq_nil_iff.mp hleft
    have hread : stmts.read tokens = { result := .ok ss, rest := [] } := hreads
    simp only [Rule.readAll, hread]

theorem Program.ofTokens_eq_ok {tokens : List Token} {p : Program} :
    Program.ofTokens tokens = .ok p ↔
      ∃ ss, Statements .closed (kinds tokens) [] ss ∧ p = .ofStmts ss := by
  unfold Program.ofTokens
  constructor
  · intro h
    cases hresult : (Rule.readAll tokens).result with
    | error e => rw [hresult] at h; cases h
    | ok ss =>
      rw [hresult] at h
      cases h
      exact ⟨ss, readAll_eq_ok.mp hresult, rfl⟩
  · rintro ⟨ss, hss, rfl⟩
    rw [readAll_eq_ok.mpr hss]
    rfl

theorem Grammar.Statements.closed_unique {tokens : List Token} {ss ss' : List Stmt}
    (h : Statements .closed (kinds tokens) [] ss) (h' : Statements .closed (kinds tokens) [] ss') :
    ss = ss' := by
  rw [← readAll_eq_ok] at h h'
  exact Except.ok.inj (h.symm.trans h')

/-- **The reader accepts exactly the grammar**: a token list is a program if and only if its kinds
have a derivation, and the program is that of the one derivation in which every minus sign takes the
longest expression behind it. -/
theorem Program.ofTokens_correct (tokens : List Token) :
    ((∃ p, Program.ofTokens tokens = .ok p) ↔
      ∃ ss, Statements .any (tokens.map Token.kind) [] ss) ∧
    ∀ p, Program.ofTokens tokens = .ok p ↔
      ∃ ss, p = .ofStmts ss ∧
        ∀ ss', Statements .longest (tokens.map Token.kind) [] ss' ↔ ss' = ss := by
  have hlongest : ∀ ss, Statements .closed (kinds tokens) [] ss ↔
      Statements .longest (kinds tokens) [] ss := fun ss => Statements.closed_iff_longest .nil
  refine ⟨⟨?_, ?_⟩, fun p => ⟨?_, ?_⟩⟩
  · rintro ⟨p, hp⟩
    obtain ⟨ss, hss, -⟩ := ofTokens_eq_ok.mp hp
    exact ⟨ss, hss.toAny .nil⟩
  · rintro ⟨ss, hss⟩
    obtain ⟨ss', hss'⟩ := hss.close .nil
    exact ⟨_, ofTokens_eq_ok.mpr ⟨ss', hss', rfl⟩⟩
  · intro hp
    obtain ⟨ss, hss, rfl⟩ := ofTokens_eq_ok.mp hp
    refine ⟨ss, rfl, fun ss' => ⟨fun hss' => ?_, ?_⟩⟩
    · exact ((hlongest ss').mpr hss').closed_unique hss
    · rintro rfl
      exact (hlongest ss').mp hss
  · rintro ⟨ss, rfl, hss⟩
    exact ofTokens_eq_ok.mpr ⟨ss, (hlongest ss).mpr ((hss ss).mpr rfl), rfl⟩

end Abacus
