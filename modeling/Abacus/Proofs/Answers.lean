import Abacus.Proofs.Compiled
import Abacus.Proofs.Folding
import Abacus.Proofs.Grammar.Accepts
import Abacus.Proofs.Layout.Readable

/-!
# What a source comes to

A source is cut into tokens, read as a program, perhaps folded, compiled and run. What comes out is
what the program means (`evaluate_of_reads`): folding does not show, and compiled code does what the
tree means.

The code does so for programs whose lists can be counted. Every program that was read is one of them,
unless its source has `2 ^ 53` characters or more: each argument and each parameter takes a token of
its own, and each token takes a character.
-/
namespace Abacus

/-! ## Tokens are no more than characters -/

namespace Token

theorem length_le_of_scan : ∀ (text : List Char) {place : Text.Place} {skip : Nat}
    {tokens : List Token}, scan place skip text = .ok tokens → tokens.length ≤ text.length
  | [], _, _, _, h => by
    cases h
    exact Nat.le_refl 0
  | c :: rest, place, skip, tokens, h => by
    rw [List.length_cons]
    unfold scan at h
    split at h
    · exact Nat.le_succ_of_le (length_le_of_scan rest h)
    · split at h
      · cases h
      · split at h
        · cases h
        · exact Nat.le_succ_of_le (length_le_of_scan rest h)
        · split at h
          · cases h
          next hothers =>
            cases h
            exact Nat.succ_le_succ (length_le_of_scan rest hothers)

end Token

theorem Text.length_trim_le (text : List Char) : (trim text).length ≤ text.length := by
  unfold trim trimEnd
  rw [List.length_reverse]
  refine Nat.le_trans (List.dropWhile_suffix _).length_le ?_
  rw [List.length_reverse]
  exact (List.dropWhile_suffix _).length_le

theorem length_le_of_tokenize {source : String} {tokens : List Token}
    (h : tokenize source = .ok tokens) : tokens.length ≤ source.length := by
  rw [← String.length_toList]
  exact Nat.le_trans (Token.length_le_of_scan _ h) (Text.length_trim_le _)

/-! ## What is read can be counted -/

namespace Grammar

section
variable {extent : Extent}

mutual

theorem Expression.counted : ∀ {k : Nat} {text rest : List TokenKind} {e : Expr},
    Expression extent k text rest e → text.length < 2 ^ 53 → e.Counted
  | _, _, _, _, .operand h, hlength => h.counted hlength
  | _, _, _, _, .chain _ _ hleft hright, hlength => by
    have hlt := hleft.length_lt
    rw [List.length_cons] at hlt
    exact ⟨hleft.counted hlength, hright.counted (by omega)⟩
  | _, _, _, _, .grouped h, hlength => h.counted (Nat.lt_of_succ_lt hlength)
  | _, _, _, _, .negated h _, hlength => h.counted (Nat.lt_of_succ_lt hlength)
  | _, _, _, _, .juxtaposed _ _ _ _, _ => ⟨trivial, trivial⟩
  | _, _, _, _, .emptyCall _ _, _ => ⟨countable_of_lt (by decide), trivial⟩
  | _, _, _, _, .call _ h, hlength => by
    have hargs := Nat.lt_of_succ_lt (Nat.lt_of_succ_lt hlength)
    exact ⟨countable_of_lt (Nat.lt_of_le_of_lt h.length_le hargs), h.counted hargs⟩
  | _, _, _, _, .var _ _, _ => trivial
  | _, _, _, _, .number _ _ _, _ => trivial

theorem Arguments.counted : ∀ {text rest : List TokenKind} {es : List Expr},
    Arguments extent text rest es → text.length < 2 ^ 53 → Expr.CountedAll es
  | _, _, _, .one h, hlength => ⟨h.counted hlength, trivial⟩
  | _, _, _, .more h hrest, hlength => by
    have hlt := h.length_lt
    rw [List.length_cons] at hlt
    exact ⟨h.counted hlength, hrest.counted (by omega)⟩

end

mutual

theorem Statement.counted : ∀ {text rest : List TokenKind} {s : Stmt},
    Statement extent text rest s → text.length < 2 ^ 53 → s.Counted
  | _, _, _, .define f params _ h, hlength => by
    have hhead := Nat.lt_trans (length_lt_defineHead f params _) hlength
    refine ⟨countable_of_lt ?_, h.counted (by omega), trivial⟩
    rw [paramList, List.length_map]
    omega
  | _, _, _, .defineBlock f params _ h, hlength => by
    have hhead := Nat.lt_trans (length_lt_defineHead f params _) hlength
    simp only [List.length_cons] at hhead
    refine ⟨countable_of_lt ?_, h.counted (by omega)⟩
    rw [paramList, List.length_map]
    omega
  | _, _, _, .assign _ h, hlength => h.counted (Nat.lt_of_succ_lt (Nat.lt_of_succ_lt hlength))
  | _, _, _, .expr h, hlength => h.counted hlength

theorem Statements.counted : ∀ {text rest : List TokenKind} {ss : List Stmt},
    Statements extent text rest ss → text.length < 2 ^ 53 → Stmt.CountedAll ss
  | _, _, _, .empty _, _ => trivial
  | _, _, _, .last h, hlength => ⟨h.counted hlength, trivial⟩
  | _, _, _, .more h hrest, hlength => by
    have hlt := h.length_lt
    rw [List.length_cons] at hlt
    exact ⟨h.counted hlength, hrest.counted (by omega)⟩

end
end
end Grammar

/-! ## Counting looks at no id -/

theorem Expr.length_bareAll (es : List Expr) : (Expr.bareAll es).length = es.length := by
  induction es with
  | nil => rfl
  | cons e rest ih => rw [Expr.bareAll, List.length_cons, List.length_cons, ih]

mutual

theorem Expr.counted_bare : ∀ e : Expr, e.bare.Counted ↔ e.Counted
  | .number _ _ _ => Iff.rfl
  | .var _ _ => Iff.rfl
  | .binary _ _ left right => and_congr left.counted_bare right.counted_bare
  | .negate _ operand => operand.counted_bare
  | .call _ _ args => by
    simp only [Expr.bare, Expr.Counted, Expr.length_bareAll args, Expr.countedAll_bareAll args]

theorem Expr.countedAll_bareAll : ∀ es : List Expr,
    Expr.CountedAll (Expr.bareAll es) ↔ Expr.CountedAll es
  | [] => Iff.rfl
  | e :: rest => and_congr e.counted_bare (Expr.countedAll_bareAll rest)

end

mutual

theorem Stmt.counted_bare : ∀ s : Stmt, s.bare.Counted ↔ s.Counted
  | .define _ _ params _ body => by
    have hparams : (Grammar.paramList params.names).params.length = params.params.length := by
      simp only [Grammar.paramList, List.length_map, params.length_names]
    simp only [Stmt.bare, Stmt.Counted, hparams, Stmt.countedAll_bareAll body]
  | .assign _ _ value => value.counted_bare
  | .expr e => e.counted_bare

theorem Stmt.countedAll_bareAll : ∀ ss : List Stmt,
    Stmt.CountedAll (Stmt.bareAll ss) ↔ Stmt.CountedAll ss
  | [] => Iff.rfl
  | s :: rest => and_congr s.counted_bare (Stmt.countedAll_bareAll rest)

end

namespace Program

theorem counted_ofStmts (ss : List Stmt) : (ofStmts ss).Counted ↔ Stmt.CountedAll ss := by
  unfold Counted
  rw [← Stmt.countedAll_bareAll, bareAll_ofStmts, Stmt.countedAll_bareAll]

theorem counted_of_reads {source : String} {tokens : List Token} {p : Program}
    (htokens : tokenize source = .ok tokens) (hp : ofTokens tokens = .ok p)
    (hlength : source.length < 2 ^ 53) : p.Counted := by
  obtain ⟨ss, hss, rfl⟩ := ofTokens_eq_ok.mp hp
  refine (counted_ofStmts ss).mpr (hss.counted ?_)
  rw [length_kinds]
  exact Nat.lt_of_le_of_lt (length_le_of_tokenize htokens) hlength

end Program

/-! ## Answers -/

/-- What a program comes to, compiled and run. -/
theorem Program.evaluate_shows {p : Program} (h : p.Counted) (limit : Option Nat) :
    (p.evaluate limit).Shows ((p.eval {} limit).mapError Failure.runtime) := by
  rw [p.evaluate_eq, p.run_compile h]
  exact ⟨rfl, rfl⟩

/-- Reading a source that is a program does not show. -/
theorem evaluate_shows {source : String} {tokens : List Token} {p : Program}
    (htokens : tokenize source = .ok tokens) (hp : Program.ofTokens tokens = .ok p)
    (options : Options) :
    (evaluate source options).Shows
      ((if options.fold then foldProgram p else pure p) >>= fun p =>
        p.evaluate options.maxCallDepth) := by
  have hreadTokens : (readTokens source).mapError Failure.lexical =
      ⟨[.tokenized tokens.length], .ok tokens⟩ := by
    rw [readTokens, htokens]; rfl
  have hreadProgram : (readProgram tokens).mapError Failure.grammatical =
      ⟨[.parsed p.stmts.length], .ok p⟩ := by
    rw [readProgram, hp]; rfl
  rw [evaluate, parse, hreadTokens, bind_assoc]
  refine (Traced.Shows.of_silent rfl rfl _).trans ?_
  rw [hreadProgram, bind_assoc]
  exact .of_silent rfl rfl _

/-- Folded or not, a source comes to what its program comes to. -/
theorem evaluate_shows_program {source : String} {tokens : List Token} {p : Program}
    (htokens : tokenize source = .ok tokens) (hp : Program.ofTokens tokens = .ok p)
    (options : Options) : (evaluate source options).Shows (p.evaluate options.maxCallDepth) := by
  refine (evaluate_shows htokens hp options).trans ?_
  cases options.fold with
  | true => exact p.evaluate_fold options.maxCallDepth
  | false => exact ⟨rfl, rfl⟩

/-- **A source comes to what its program means**, folded or not, after printing what its program
prints. -/
theorem evaluate_of_reads {source : String} {tokens : List Token} {p : Program}
    (htokens : tokenize source = .ok tokens) (hp : Program.ofTokens tokens = .ok p)
    (hlength : source.length < 2 ^ 53) (options : Options) :
    (evaluate source options).Shows
      ((p.eval {} options.maxCallDepth).mapError Failure.runtime) := by
  have hcounted := Program.counted_of_reads htokens hp hlength
  have hvalue := Program.evaluate_shows hcounted options.maxCallDepth
  exact (evaluate_shows_program htokens hp options).trans hvalue

end Abacus
