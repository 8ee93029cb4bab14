import Abacus.Proofs.Grammar.Derivation

/-!
# How far a minus sign reaches

A text that has any derivation has one in which every minus sign is closed, that is, no operator
follows its operand (`Statements.close`): a sign that stopped early takes the rest of the chain
as well, which makes another tree of the same text. And in a whole text the closed operands are
exactly the longest ones (`Statements.closed_iff_longest`).

For an operand that is closed no longer one exists, since no expression goes on over what may follow
one (`Expression.scan_eq`). For the longest one no operator follows, since that operator and what is
behind it could be taken as well (`Expression.close`).
-/
namespace Abacus.Grammar

/-! ## What may follow -/

/-- What may stand behind an expression of level `k` in a whole text. -/
inductive Follow (k : Nat) : List TokenKind → Prop
  | nil : Follow k []
  | newline (rest : List TokenKind) : Follow k (.newline :: rest)
  | comma (rest : List TokenKind) : Follow k (.symbol .comma :: rest)
  | closeParen (rest : List TokenKind) : Follow k (.symbol .closeParen :: rest)
  | closeBrace (rest : List TokenKind) : Follow k (.symbol .closeBrace :: rest)
  | operator (op : Operator) (hop : op.precedence < k) (rest : List TokenKind) :
      Follow k (.symbol op.sign :: rest)

namespace Follow

variable {j k : Nat} {rest : List TokenKind}

theorem mono (hjk : j ≤ k) (h : Follow j rest) : Follow k rest := by
  cases h with
  | nil => exact .nil
  | newline rest => exact .newline rest
  | comma rest => exact .comma rest
  | closeParen rest => exact .closeParen rest
  | closeBrace rest => exact .closeBrace rest
  | operator op hop rest => exact .operator op (Nat.lt_of_lt_of_le hop hjk) rest

theorem noOperator (h : Follow 1 rest) : NoOperator rest := by
  intro op rest' heq
  cases h with
  | operator op' hop _ => exact absurd op'.one_le_precedence (Nat.not_le.mpr hop)
  | _ => cases op <;> cases heq

theorem of_noOperator (h : Follow k rest) (hno : NoOperator rest) : Follow 1 rest := by
  cases h with
  | nil => exact .nil
  | newline rest => exact .newline rest
  | comma rest => exact .comma rest
  | closeParen rest => exact .closeParen rest
  | closeBrace rest => exact .closeBrace rest
  | operator op hop rest => exact absurd rfl (hno op rest)

theorem scan_eq (h : Follow 1 rest) : scan 0 rest = rest := by
  cases h with
  | operator op hop rest => exact absurd op.one_le_precedence (Nat.not_le.mpr hop)
  | _ => rfl

end Follow

/-! ## Closing the operands of minus signs -/

/-- A text whose front may be left by an expression that ends at `last`: either nothing is left in
front of `last`, or an operator and a closed expression. -/
inductive Tail : (text last : List TokenKind) → Prop
  | nothing {last : List TokenKind} (hlast : NoOperator last) : Tail last last
  | operator {text last : List TokenKind} {e : Expr} (op : Operator)
      (h : Expression .closed 1 text last e) (hlast : NoOperator last) :
      Tail (.symbol op.sign :: text) last

theorem Tail.noOperator {text last : List TokenKind} (h : Tail text last) : NoOperator last := by
  cases h with
  | nothing hlast => exact hlast
  | operator _ _ hlast => exact hlast

section
variable {extent : Extent} {text mid rest last : List TokenKind}

/-- A value and an operator in front of an expression make an expression. -/
theorem Expression.prepend {v : Expr} (op : Operator)
    (hv : Expression extent 4 text (.symbol op.sign :: mid) v) {j : Nat}
    (hj : j ≤ op.precedence) {e : Expr} (he : Expression extent j mid rest e) :
    ∃ e', Expression extent j text rest e' := by
  obtain ⟨n, hn⟩ : ∃ n, n = op.precedence - j := ⟨_, rfl⟩
  induction n generalizing j e rest with
  | zero =>
    obtain rfl : j = op.precedence := by omega
    have hle : op.precedence + 1 ≤ 4 := Nat.succ_le_succ op.precedence_le_three
    exact ⟨_, .chain op rfl (hv.lower hle) he⟩
  | succ n ih =>
    have hthree := op.precedence_le_three
    cases he with
    | operand he =>
      obtain ⟨e', he'⟩ := ih (by omega) he (by omega)
      exact ⟨e', .operand he'⟩
    | chain op' hop' hleft hright =>
      obtain ⟨e', he'⟩ := ih (by omega) hleft (by omega)
      exact ⟨_, .chain op' hop' he' hright⟩
    | _ => omega

theorem Expression.append_tail {v : Expr} (hv : Expression .closed 4 text rest v)
    (htail : Tail rest last) : ∃ e, Expression .closed 1 text last e := by
  cases htail with
  | nothing hlast => exact ⟨v, hv.lower (by omega)⟩
  | operator op he hlast => exact hv.prepend op op.one_le_precedence he

mutual

/-- Whatever is left behind an expression, it can be closed at the end of that: a minus sign that
stopped early takes what is left. -/
theorem Expression.close : ∀ {k : Nat} {text rest : List TokenKind} {e : Expr},
    Expression extent k text rest e → ∀ {last : List TokenKind}, Tail rest last →
      ∃ e', Expression .closed 1 text last e'
  | _, _, _, _, .operand h, _, htail => h.close htail
  | _, _, _, _, .chain op _ hleft hright, _, htail => by
    obtain ⟨e, he⟩ := hright.close htail
    exact hleft.close (.operator op he htail.noOperator)
  | _, _, _, _, .grouped h, _, htail => by
    obtain ⟨e, he⟩ := h.close (.nothing (Follow.closeParen _).noOperator)
    exact (Expression.grouped he).append_tail htail
  | _, _, _, _, .negated h _, _, htail => by
    obtain ⟨e, he⟩ := h.close htail
    exact ⟨_, (Expression.negated he htail.noOperator).lower (by omega)⟩
  | _, _, _, _, .juxtaposed v source x rest, _, htail =>
    (Expression.juxtaposed v source x rest).append_tail htail
  | _, _, _, _, .emptyCall f rest, _, htail => (Expression.emptyCall f rest).append_tail htail
  | _, _, _, _, .call f h, _, htail => by
    obtain ⟨args, hargs⟩ := h.close (Follow.closeParen _).noOperator
    exact (Expression.call f hargs).append_tail htail
  | _, _, _, _, .var x rest, _, htail => (Expression.var x rest).append_tail htail
  | _, _, _, _, .number v source rest, _, htail =>
    (Expression.number v source rest).append_tail htail

theorem Arguments.close : ∀ {text rest : List TokenKind} {es : List Expr},
    Arguments extent text rest es → NoOperator rest → ∃ es', Arguments .closed text rest es'
  | _, _, _, .one h, hrest => by
    obtain ⟨e, he⟩ := h.close (.nothing hrest)
    exact ⟨[e], .one he⟩
  | _, _, _, .more h hmore, hrest => by
    obtain ⟨e, he⟩ := h.close (.nothing (Follow.comma _).noOperator)
    obtain ⟨es, hes⟩ := hmore.close hrest
    exact ⟨e :: es, .more he hes⟩

end

/-! ## Closed and longest operands -/

/-- A closed expression that ends where an expression may end is the longest one. -/
theorem Expression.longest_of_follow {e : Expr} (h : Expression .closed 1 text rest e)
    (hfollow : Follow 1 rest) : Extent.longest text rest := by
  intro rest' e' h'
  have hscan : scan 0 rest' = rest := by
    rw [← h'.scan_eq 0, h.scan_eq 0, hfollow.scan_eq]
  have hle := length_scan_le 0 rest'
  rwa [hscan] at hle

mutual

theorem Expression.longest_of_closed : ∀ {k : Nat} {text rest : List TokenKind} {e : Expr},
    Expression .closed k text rest e → Follow k rest → Expression .longest k text rest e
  | _, _, _, _, .operand h, hfollow => .operand (h.longest_of_closed (hfollow.mono (Nat.le_succ _)))
  | _, _, _, _, .chain op hop hleft hright, hfollow =>
    .chain op hop (hleft.longest_of_closed (.operator op (hop ▸ Nat.lt_succ_self _) _))
      (hright.longest_of_closed hfollow)
  | _, _, _, _, .grouped h, _ => .grouped (h.longest_of_closed (.closeParen _))
  | _, _, _, _, .negated h hclosed, hfollow =>
    have hfollow := hfollow.of_noOperator hclosed
    .negated (h.longest_of_closed hfollow) (h.longest_of_follow hfollow)
  | _, _, _, _, .juxtaposed v source x rest, _ => .juxtaposed v source x rest
  | _, _, _, _, .emptyCall f rest, _ => .emptyCall f rest
  | _, _, _, _, .call f h, _ => .call f (h.longest_of_closed (.closeParen _))
  | _, _, _, _, .var x rest, _ => .var x rest
  | _, _, _, _, .number v source rest, _ => .number v source rest

theorem Arguments.longest_of_closed : ∀ {text rest : List TokenKind} {es : List Expr},
    Arguments .closed text rest es → Follow 1 rest → Arguments .longest text rest es
  | _, _, _, .one h, hfollow => .one (h.longest_of_closed hfollow)
  | _, _, _, .more h hrest, hfollow =>
    .more (h.longest_of_closed (.comma _)) (hrest.longest_of_closed hfollow)

end

/-- The longest operand of a minus sign is closed: if an operator followed, what is behind it could
be taken as well. -/
theorem Expression.noOperator_of_longest {e : Expr} (h : Expression extent 1 text rest e)
    (hlongest : Extent.longest text rest) (htail : Tail rest last) : NoOperator rest := by
  obtain ⟨e', he'⟩ := h.close htail
  cases htail with
  | nothing hlast => exact hlast
  | operator op hop hlast =>
    have hle := hlongest last e' he'.toAny
    have hlt := hop.length_lt
    rw [List.length_cons] at hle
    omega

mutual

theorem Expression.closed_of_longest : ∀ {k : Nat} {text rest : List TokenKind} {e : Expr},
    Expression .longest k text rest e → ∀ {last : List TokenKind}, Tail rest last →
      Expression .closed k text rest e
  | _, _, _, _, .operand h, _, htail => .operand (h.closed_of_longest htail)
  | _, _, _, _, .chain op hop hleft hright, _, htail => by
    obtain ⟨e, he⟩ := hright.close htail
    exact .chain op hop (hleft.closed_of_longest (.operator op he htail.noOperator))
      (hright.closed_of_longest htail)
  | _, _, _, _, .grouped h, _, _ =>
    .grouped (h.closed_of_longest (.nothing (Follow.closeParen _).noOperator))
  | _, _, _, _, .negated h hlongest, _, htail =>
    .negated (h.closed_of_longest htail) (h.noOperator_of_longest hlongest htail)
  | _, _, _, _, .juxtaposed v source x rest, _, _ => .juxtaposed v source x rest
  | _, _, _, _, .emptyCall f rest, _, _ => .emptyCall f rest
  | _, _, _, _, .call f h, _, _ => .call f (h.closed_of_longest (Follow.closeParen _).noOperator)
  | _, _, _, _, .var x rest, _, _ => .var x rest
  | _, _, _, _, .number v source rest, _, _ => .number v source rest

theorem Arguments.closed_of_longest : ∀ {text rest : List TokenKind} {es : List Expr},
    Arguments .longest text rest es → NoOperator rest → Arguments .closed text rest es
  | _, _, _, .one h, hrest => .one (h.closed_of_longest (.nothing hrest))
  | _, _, _, .more h hmore, hrest =>
    .more (h.closed_of_longest (.nothing (Follow.comma _).noOperator))
      (hmore.closed_of_longest hrest)

end
end

/-! ## Statements -/

section
variable {extent extent' : Extent}

mutual

/-- What holds of the expressions that end where one may end holds of the statements made of
them. -/
theorem Statement.mono
    (h : ∀ {text rest e}, Follow 1 rest → Expression extent 1 text rest e →
      Expression extent' 1 text rest e) :
    ∀ {text rest : List TokenKind} {s : Stmt}, Statement extent text rest s → Follow 1 rest →
      Statement extent' text rest s
  | _, _, _, .define f params hf hs, hrest => .define f params hf (hs.mono h hrest)
  | _, _, _, .defineBlock f params hf hs, _ =>
    .defineBlock f params hf (hs.mono h (.closeBrace _))
  | _, _, _, .assign x he, hrest => .assign x (h hrest he)
  | _, _, _, .expr he, hrest => .expr (h hrest he)

theorem Statements.mono
    (h : ∀ {text rest e}, Follow 1 rest → Expression extent 1 text rest e →
      Expression extent' 1 text rest e) :
    ∀ {text rest : List TokenKind} {ss : List Stmt}, Statements extent text rest ss →
      Follow 1 rest → Statements extent' text rest ss
  | _, _, _, .empty rest, _ => .empty rest
  | _, _, _, .last hs, hrest => .last (hs.mono h hrest)
  | _, _, _, .more hs hss, hrest => .more (hs.mono h (.newline _)) (hss.mono h hrest)

end

mutual

theorem Statement.close : ∀ {text rest : List TokenKind} {s : Stmt},
    Statement extent text rest s → Follow 1 rest → ∃ s', Statement .closed text rest s'
  | _, _, _, .define f params hf hs, hrest => by
    obtain ⟨s', hs'⟩ := hs.close hrest
    exact ⟨_, .define f params hf hs'⟩
  | _, _, _, .defineBlock f params hf hs, _ => by
    obtain ⟨ss', hss'⟩ := hs.close (.closeBrace _)
    exact ⟨_, .defineBlock f params hf hss'⟩
  | _, _, _, .assign x he, hrest => by
    obtain ⟨e', he'⟩ := he.close (.nothing hrest.noOperator)
    exact ⟨_, .assign x he'⟩
  | _, _, _, .expr he, hrest => by
    obtain ⟨e', he'⟩ := he.close (.nothing hrest.noOperator)
    exact ⟨_, .expr he'⟩

theorem Statements.close : ∀ {text rest : List TokenKind} {ss : List Stmt},
    Statements extent text rest ss → Follow 1 rest → ∃ ss', Statements .closed text rest ss'
  | _, _, _, .empty rest, _ => ⟨[], .empty rest⟩
  | _, _, _, .last hs, hrest => by
    obtain ⟨s', hs'⟩ := hs.close hrest
    exact ⟨[s'], .last hs'⟩
  | _, _, _, .more hs hss, hrest => by
    obtain ⟨s', hs'⟩ := hs.close (.newline _)
    obtain ⟨ss', hss'⟩ := hss.close hrest
    exact ⟨s' :: ss', .more hs' hss'⟩

end

theorem Statements.toAny {text rest : List TokenKind} {ss : List Stmt}
    (h : Statements extent text rest ss) (hrest : Follow 1 rest) : Statements .any text rest ss :=
  h.mono (fun _ he => he.toAny) hrest

end

theorem Statements.closed_iff_longest {text rest : List TokenKind} {ss : List Stmt}
    (hrest : Follow 1 rest) :
    Statements .closed text rest ss ↔ Statements .longest text rest ss := by
  constructor
  · intro h
    exact h.mono (fun hrest he => he.longest_of_closed hrest) hrest
  · intro h
    exact h.mono (fun hrest he => he.closed_of_longest (.nothing hrest.noOperator)) hrest

end Abacus.Grammar
