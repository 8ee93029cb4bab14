import Abacus.Proofs.Grammar.Extent
import Abacus.Proofs.Grammar.Sound

/-!
# Closed expressions are read

A closed expression that ends where one may end is read by the rule of its level, with the tree of
the derivation (`Expression.reads`). The induction is along the derivation; the depth to which inner
phrases may nest only has to cover the tokens, since a token stands before each inner phrase.

A choice between values is decided by the token in front, or by two to tell `2x` from `2` and `f()`
from `f`. So nothing is read in a choice that is not due, and nothing is found malformed in it.
-/
namespace Abacus

open Grammar

/-! ## What follows is no part of a value -/

theorem Grammar.Follow.head_ne {k : Nat} {kind : TokenKind} {rest : List TokenKind}
    (h : Follow k (kind :: rest)) :
    (∀ x, kind ≠ .name x) ∧ kind ≠ .symbol .openParen ∧ kind ≠ .symbol .equals := by
  cases h with
  | operator op _ _ => cases op <;> simp [Operator.sign]
  | _ => simp

namespace Rule

variable {inner : Inner} {tokens rest : List Token}

/-! ## Choices that are not due -/

theorem declines_grouped {t : Token} {ts : List Token} (h : t.kind ≠ .symbol .openParen) :
    Declines inner grouped (t :: ts) := by
  refine declines_bind.mpr (.inl (declines_bind.mpr (.inl (declines_symbol.mpr ?_))))
  rintro _ _ ⟨⟩
  exact h

theorem declines_negated {t : Token} {ts : List Token} (h : t.kind ≠ .symbol .minus) :
    Declines inner negated (t :: ts) := by
  refine declines_bind.mpr (.inl (declines_bind.mpr (.inl (declines_symbol.mpr ?_))))
  rintro _ _ ⟨⟩
  exact h

theorem declines_juxtaposed {t : Token} {ts : List Token}
    (h : ∀ v source, t.kind ≠ .number v source) : Declines inner juxtaposed (t :: ts) := by
  refine declines_bind.mpr (.inl (declines_number.mpr ?_))
  rintro _ _ ⟨⟩
  exact h

/-- A number is a value of its own unless a name follows. -/
theorem declines_juxtaposed_of_follow {k : Nat} {t : Token} {v : Float} {source : String}
    (hkind : t.kind = .number v source) (hfollow : Follow k (kinds rest)) :
    Declines inner juxtaposed (t :: rest) := by
  have hnumber : Reads inner number (t :: rest) (.number unnumbered v (some source)) rest :=
    reads_number.mpr ⟨t, v, source, hkind, rfl, rfl⟩
  refine declines_bind.mpr (.inr ⟨_, rest, hnumber, declines_bind.mpr (.inl ?_)⟩)
  refine declines_name.mpr ?_
  rintro t' ts rfl
  exact hfollow.head_ne.1

theorem declines_call {t : Token} {ts : List Token} (h : ∀ x, t.kind ≠ .name x) :
    Declines inner call (t :: ts) := by
  refine declines_bind.mpr (.inl (declines_bind.mpr (.inl (declines_name.mpr ?_))))
  rintro _ _ ⟨⟩
  exact h

/-- A name is a variable unless a bracket follows. -/
theorem declines_call_of_follow {k : Nat} {t : Token} {x : String} (hkind : t.kind = .name x)
    (hfollow : Follow k (kinds rest)) : Declines inner call (t :: rest) := by
  have hname : Reads inner name (t :: rest) x rest := reads_name.mpr ⟨t, hkind, rfl⟩
  refine declines_bind.mpr (.inl (declines_bind.mpr (.inr ⟨x, rest, hname, ?_⟩)))
  refine declines_bind.mpr (.inl (declines_symbol.mpr ?_))
  rintro t' ts rfl
  exact hfollow.head_ne.2.1

theorem declines_var {t : Token} {ts : List Token} (h : ∀ x, t.kind ≠ .name x) :
    Declines inner var (t :: ts) := by
  refine declines_bind.mpr (.inl (declines_name.mpr ?_))
  rintro _ _ ⟨⟩
  exact h

/-! ## The choice that is due -/

section
variable {t : Token} {ts : List Token} {e : Expr}

theorem reads_value_of_grouped (h : Reads inner grouped tokens e rest) :
    Reads inner value tokens e rest :=
  reads_label.mpr (reads_orElse.mpr (.inl h))

theorem reads_value_of_negated (hkind : t.kind = .symbol .minus)
    (h : Reads inner negated (t :: ts) e rest) : Reads inner value (t :: ts) e rest := by
  have hgrouped : Declines inner grouped (t :: ts) := declines_grouped (by rw [hkind]; exact nofun)
  exact reads_label.mpr (reads_orElse.mpr (.inr ⟨hgrouped, reads_orElse.mpr (.inl h)⟩))

/-- What starts with a number or a name is none of the values that start with a symbol. -/
theorem reads_value_of_ne_symbol (hkind : ∀ s, t.kind ≠ .symbol s)
    (h : Reads inner (juxtaposed.orElse (call.orElse (var.orElse number))) (t :: ts) e rest) :
    Reads inner value (t :: ts) e rest := by
  have hgrouped : Declines inner grouped (t :: ts) := declines_grouped (hkind _)
  have hnegated : Declines inner negated (t :: ts) := declines_negated (hkind _)
  unfold value
  rw [reads_label, reads_orElse, reads_orElse]
  exact .inr ⟨hgrouped, .inr ⟨hnegated, h⟩⟩

theorem reads_value_of_juxtaposed {v : Float} {source : String} (hkind : t.kind = .number v source)
    (h : Reads inner juxtaposed (t :: ts) e rest) : Reads inner value (t :: ts) e rest :=
  reads_value_of_ne_symbol (by rw [hkind]; exact nofun) (reads_orElse.mpr (.inl h))

theorem reads_value_of_call {f : String} (hkind : t.kind = .name f)
    (h : Reads inner call (t :: ts) e rest) : Reads inner value (t :: ts) e rest := by
  have hjuxtaposed : Declines inner juxtaposed (t :: ts) :=
    declines_juxtaposed (by rw [hkind]; exact nofun)
  refine reads_value_of_ne_symbol (by rw [hkind]; exact nofun) ?_
  exact reads_orElse.mpr (.inr ⟨hjuxtaposed, reads_orElse.mpr (.inl h)⟩)

theorem reads_value_of_var {x : String} (hkind : t.kind = .name x)
    (hcall : Declines inner call (t :: rest)) :
    Reads inner value (t :: rest) (.var unnumbered x) rest := by
  have hjuxtaposed : Declines inner juxtaposed (t :: rest) :=
    declines_juxtaposed (by rw [hkind]; exact nofun)
  have hvar : Reads inner var (t :: rest) (.var unnumbered x) rest :=
    reads_var.mpr ⟨t, x, hkind, rfl, rfl⟩
  refine reads_value_of_ne_symbol (by rw [hkind]; exact nofun) ?_
  rw [reads_orElse, reads_orElse, reads_orElse]
  exact .inr ⟨hjuxtaposed, .inr ⟨hcall, .inl hvar⟩⟩

theorem reads_value_of_number {v : Float} {source : String} (hkind : t.kind = .number v source)
    (hjuxtaposed : Declines inner juxtaposed (t :: rest)) :
    Reads inner value (t :: rest) (.number unnumbered v (some source)) rest := by
  have hcall : Declines inner call (t :: rest) := declines_call (by rw [hkind]; exact nofun)
  have hvar : Declines inner var (t :: rest) := declines_var (by rw [hkind]; exact nofun)
  have hnumber : Reads inner number (t :: rest) (.number unnumbered v (some source)) rest :=
    reads_number.mpr ⟨t, v, source, hkind, rfl, rfl⟩
  refine reads_value_of_ne_symbol (by rw [hkind]; exact nofun) ?_
  rw [reads_orElse, reads_orElse, reads_orElse]
  exact .inr ⟨hjuxtaposed, .inr ⟨hcall, .inr ⟨hvar, hnumber⟩⟩⟩

end

/-! ## Nothing starts with a closing bracket -/

/-- A closing bracket or brace, or nothing, comes first. -/
def Closes (tokens : List Token) : Prop :=
  ∀ t ts, tokens = t :: ts → t.kind = .symbol .closeParen ∨ t.kind = .symbol .closeBrace

theorem Closes.ne (kind : TokenKind) (h : Closes tokens) (hparen : kind ≠ .symbol .closeParen)
    (hbrace : kind ≠ .symbol .closeBrace) : ∀ t ts, tokens = t :: ts → t.kind ≠ kind := by
  rintro t ts heq rfl
  rcases h t ts heq with hclose | hclose
  · exact hparen hclose
  · exact hbrace hclose

theorem declines_name_of_closes (h : Closes tokens) : Declines inner name tokens :=
  declines_name.mpr fun t ts heq x => h.ne (.name x) nofun nofun t ts heq

theorem declines_value (h : Closes tokens) : Declines inner value tokens := by
  have hname : Declines inner name tokens := declines_name_of_closes h
  have hnumber : Declines inner number tokens :=
    declines_number.mpr fun t ts heq v source => h.ne (.number v source) nofun nofun t ts heq
  have hopen : Declines inner (symbol .openParen) tokens := declines_symbol.mpr (h.ne _ nofun nofun)
  have hminus : Declines inner (symbol .minus) tokens := declines_symbol.mpr (h.ne _ nofun nofun)
  unfold value
  rw [declines_label]
  simp only [declines_orElse]
  refine ⟨?_, ?_, ?_, ?_, ?_, hnumber⟩
  · exact declines_bind.mpr (.inl (declines_bind.mpr (.inl hopen)))
  · exact declines_bind.mpr (.inl (declines_bind.mpr (.inl hminus)))
  · exact declines_bind.mpr (.inl hnumber)
  · exact declines_bind.mpr (.inl (declines_bind.mpr (.inl hname)))
  · exact declines_bind.mpr (.inl hname)

theorem declines_expression (h : Closes tokens) : Declines inner expression tokens := by
  have hpower : Declines inner power tokens := declines_bind.mpr (.inl (declines_value h))
  have hterm : Declines inner term tokens := declines_bind.mpr (.inl hpower)
  exact declines_bind.mpr (.inl hterm)

theorem declines_statement (h : Closes tokens) : Declines inner statement tokens := by
  have hspanned : Declines inner spannedName tokens :=
    declines_spannedName.mpr fun t ts heq x => h.ne (.name x) nofun nofun t ts heq
  have hhead : Declines inner defineHead tokens :=
    declines_bind.mpr (.inl (declines_bind.mpr (.inl hspanned)))
  have hassign : Declines inner assign tokens :=
    declines_bind.mpr (.inl (declines_bind.mpr (.inl (declines_name_of_closes h))))
  unfold statement
  rw [declines_orElse, declines_orElse]
  exact ⟨declines_bind.mpr (.inl hhead), hassign,
    declines_bind.mpr (.inl (declines_expression h))⟩

/-! ## Chains -/

theorem reads_levelRule_of_operand {k depth : Nat} {e : Expr} (hfollow : Follow k (kinds rest))
    (h : Reads (innerTo depth) (levelRule (k + 1)) tokens e rest) :
    Reads (innerTo depth) (levelRule k) tokens e rest := by
  by_cases hk : 1 ≤ k ∧ k ≤ 3
  · obtain ⟨what, hreads⟩ := reads_levelRule depth hk.1 hk.2
    refine hreads.mpr ⟨e, rest, [], h, .stop (reads_chainLink_none.mpr ⟨?_, rfl⟩), rfl⟩
    refine (declines_operatorRule hk.1 hk.2).mpr ?_
    rintro op hop t ts rfl hkind
    rw [kinds_cons, hkind] at hfollow
    obtain ⟨op', hop', hsign⟩ : ∃ op' : Operator, op'.precedence < k ∧ op.sign = op'.sign := by
      generalize hs : op.sign = s at hfollow
      cases hfollow with
      | operator op' hop' _ => exact ⟨op', hop', rfl⟩
      | _ => cases op <;> cases hs
    rw [Operator.sign_injective hsign] at hop
    omega
  · match k, hk with
    | 0, _ => exact h
    | 1, hk | 2, hk | 3, hk => exact absurd (by decide) hk
    | k + 4, _ => exact h

theorem reads_levelRule_of_chain {k depth : Nat} {left right : Expr} {op : Operator} {t : Token}
    {mid : List Token} (hop : op.precedence = k) (hkind : t.kind = .symbol op.sign)
    (hleft : Reads (innerTo depth) (levelRule (k + 1)) tokens left (t :: mid))
    (hright : Reads (innerTo depth) (levelRule k) mid right rest) :
    Reads (innerTo depth) (levelRule k) tokens (.binary unnumbered op left right) rest := by
  have hk : 1 ≤ k := hop ▸ op.one_le_precedence
  have hk' : k ≤ 3 := hop ▸ op.precedence_le_three
  obtain ⟨what, hreads⟩ := reads_levelRule depth hk hk'
  obtain ⟨first, mid', links, hfirst, hlinks, rfl⟩ := hreads.mp hright
  have hlink : Reads (innerTo depth) (chainLink (levelRule (k + 1)) (operatorRule k) what) (t :: mid)
      (some (op, first)) mid' :=
    reads_chainLink_some.mpr ⟨mid, (reads_operatorRule hk hk').mpr ⟨hop, t, hkind, rfl⟩, hfirst⟩
  exact hreads.mpr ⟨left, t :: mid, (op, first) :: links, hleft, .turn hlink hlinks, rfl⟩

end Rule

/-! ## Expressions -/

open Rule

/-- A token at the front takes one level of nesting. -/
theorem Rule.depth_of_cons {depth : Nat} {t : Token} {ts : List Token}
    (h : (t :: ts).length ≤ depth) : ∃ d, depth = d + 1 ∧ ts.length ≤ d := by
  rw [List.length_cons] at h
  exact ⟨depth - 1, by omega, by omega⟩

mutual

/-- A closed expression that ends where one may end is read by the rule of its level. -/
theorem Grammar.Expression.reads : ∀ {k : Nat} {text rest : List TokenKind} {e : Expr},
    Expression .closed k text rest e → Follow k rest →
      ∀ {depth : Nat} {tokens : List Token}, kinds tokens = text → tokens.length ≤ depth →
        ∃ left, kinds left = rest ∧ Reads (innerTo depth) (levelRule k) tokens e left
  | _, _, _, _, .operand h, hfollow, _, _, htokens, hdepth => by
    obtain ⟨left, hleft, hreads⟩ := h.reads (hfollow.mono (Nat.le_succ _)) htokens hdepth
    rw [← hleft] at hfollow
    exact ⟨left, hleft, reads_levelRule_of_operand hfollow hreads⟩
  | k, _, _, _, .chain op hop hleft hright, hfollow, _, _, htokens, hdepth => by
    have hlt : op.precedence < k + 1 := by omega
    obtain ⟨mid, hmid, hfirst⟩ := hleft.reads (.operator op hlt _) htokens hdepth
    obtain ⟨t, mid, rfl, hkind, hmid⟩ := kinds_eq_cons.mp hmid
    have hlength := Nat.le_trans (Nat.le_of_succ_le hfirst.length_le) hdepth
    obtain ⟨left, hleft, hrest⟩ := hright.reads hfollow hmid hlength
    exact ⟨left, hleft, reads_levelRule_of_chain hop hkind hfirst hrest⟩
  | _, _, _, _, .grouped h, _, _, _, htokens, hdepth => by
    obtain ⟨t, ts, rfl, hkind, hts⟩ := kinds_eq_cons.mp htokens
    obtain ⟨d, rfl, hd⟩ := depth_of_cons hdepth
    obtain ⟨left, hleft, hreads⟩ := h.reads (.closeParen _) hts hd
    obtain ⟨t', left, rfl, hkind', hleft⟩ := kinds_eq_cons.mp hleft
    refine ⟨left, hleft, reads_value_of_grouped ?_⟩
    exact reads_grouped.mpr ⟨t, ts, t', hkind, hkind', rfl, reads_inner.mpr hreads⟩
  | _, _, _, _, .negated h hclosed, hfollow, _, _, htokens, hdepth => by
    obtain ⟨t, ts, rfl, hkind, hts⟩ := kinds_eq_cons.mp htokens
    obtain ⟨d, rfl, hd⟩ := depth_of_cons hdepth
    obtain ⟨left, hleft, hreads⟩ := h.reads (hfollow.of_noOperator hclosed) hts hd
    refine ⟨left, hleft, reads_value_of_negated hkind ?_⟩
    exact reads_negated.mpr ⟨t, ts, _, hkind, rfl, reads_inner.mpr hreads, rfl⟩
  | _, _, _, _, .juxtaposed v source x rest, _, _, _, htokens, _ => by
    obtain ⟨t, ts, rfl, hkind, hts⟩ := kinds_eq_cons.mp htokens
    obtain ⟨t', left, rfl, hkind', hleft⟩ := kinds_eq_cons.mp hts
    refine ⟨left, hleft, reads_value_of_juxtaposed hkind ?_⟩
    exact reads_juxtaposed.mpr ⟨t, t', v, source, x, hkind, hkind', rfl, rfl⟩
  | _, _, _, _, .emptyCall f rest, _, depth, _, htokens, _ => by
    obtain ⟨t, ts, rfl, hkind, hts⟩ := kinds_eq_cons.mp htokens
    obtain ⟨t', ts, rfl, hkind', hts⟩ := kinds_eq_cons.mp hts
    obtain ⟨t'', left, rfl, hkind'', hleft⟩ := kinds_eq_cons.mp hts
    have hcloses : Closes (t'' :: left) := by
      rintro _ _ ⟨⟩
      exact .inl hkind''
    have hargs : Declines (innerTo depth) arguments (t'' :: left) :=
      declines_bind.mpr (.inl (declines_inner fun _ => declines_expression hcloses))
    refine ⟨left, hleft, reads_value_of_call hkind ?_⟩
    exact reads_call.mpr ⟨t, t', t'' :: left, t'', f, none, hkind, hkind', hkind'', rfl,
      reads_optional_none.mpr ⟨hargs, rfl⟩, rfl⟩
  | _, _, _, _, .call f h, _, _, _, htokens, hdepth => by
    obtain ⟨t, ts, rfl, hkind, hts⟩ := kinds_eq_cons.mp htokens
    obtain ⟨d, rfl, hd⟩ := depth_of_cons hdepth
    obtain ⟨t', ts, rfl, hkind', hts⟩ := kinds_eq_cons.mp hts
    have hlength : ts.length ≤ d := Nat.le_of_succ_le hd
    obtain ⟨left, hleft, hreads⟩ := h.reads ⟨_, rfl⟩ hts hlength
    obtain ⟨t'', left, rfl, hkind'', hleft⟩ := kinds_eq_cons.mp hleft
    refine ⟨left, hleft, reads_value_of_call hkind ?_⟩
    exact reads_call.mpr ⟨t, t', ts, t'', f, some _, hkind, hkind', hkind'', rfl,
      reads_optional_some.mpr hreads, rfl⟩
  | _, _, _, _, .var x rest, hfollow, _, _, htokens, _ => by
    obtain ⟨t, left, rfl, hkind, hleft⟩ := kinds_eq_cons.mp htokens
    rw [← hleft] at hfollow
    exact ⟨left, hleft, reads_value_of_var hkind (declines_call_of_follow hkind hfollow)⟩
  | _, _, _, _, .number v source rest, hfollow, _, _, htokens, _ => by
    obtain ⟨t, left, rfl, hkind, hleft⟩ := kinds_eq_cons.mp htokens
    rw [← hleft] at hfollow
    exact ⟨left, hleft, reads_value_of_number hkind (declines_juxtaposed_of_follow hkind hfollow)⟩

theorem Grammar.Arguments.reads : ∀ {text rest : List TokenKind} {es : List Expr},
    Arguments .closed text rest es → (∃ rest', rest = .symbol .closeParen :: rest') →
      ∀ {depth : Nat} {tokens : List Token}, kinds tokens = text → tokens.length ≤ depth →
        ∃ left, kinds left = rest ∧ Reads (innerTo (depth + 1)) arguments tokens es left
  | _, rest, _, .one h, hrest, depth, _, htokens, hdepth => by
    have hfollow : Follow 1 rest := by
      obtain ⟨rest', hrest⟩ := hrest
      exact hrest ▸ .closeParen rest'
    obtain ⟨left, hleft, hreads⟩ := h.reads hfollow htokens hdepth
    obtain ⟨rest', rfl⟩ := hrest
    obtain ⟨t, left, rfl, hkind, hleft⟩ := kinds_eq_cons.mp hleft
    have hcomma : Declines (innerTo (depth + 1)) (symbol .comma) (t :: left) := by
      refine declines_symbol.mpr ?_
      rintro _ _ ⟨⟩
      rw [hkind]
      exact nofun
    refine ⟨t :: left, by rw [kinds_cons, hkind, hleft], reads_arguments.mpr ?_⟩
    exact ⟨_, t :: left, [], reads_inner.mpr hreads,
      .stop (reads_nextArgument_none.mpr ⟨hcomma, rfl⟩), rfl⟩
  | _, _, _, .more h hmore, hrest, _, _, htokens, hdepth => by
    obtain ⟨mid, hmid, hfirst⟩ := h.reads (.comma _) htokens hdepth
    obtain ⟨t, mid, rfl, hkind, hmid⟩ := kinds_eq_cons.mp hmid
    have hlength := Nat.le_trans (Nat.le_of_succ_le hfirst.length_le) hdepth
    obtain ⟨left, hleft, hreads⟩ := hmore.reads hrest hmid hlength
    obtain ⟨second, mid', others, hsecond, hothers, rfl⟩ := reads_arguments.mp hreads
    refine ⟨left, hleft, reads_arguments.mpr ?_⟩
    exact ⟨_, t :: mid, second :: others, reads_inner.mpr hfirst,
      .turn (reads_nextArgument_some.mpr ⟨t, mid, hkind, rfl, hsecond⟩) hothers, rfl⟩

end
end Abacus
