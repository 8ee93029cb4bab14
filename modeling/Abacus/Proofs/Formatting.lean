import Abacus.Proofs.Answers
import Abacus.Proofs.Layout.Computed

/-!
# Formatting does not change an answer

The canonical text of a source, folded or not, is a source itself and gives the same answers. Folding
leaves a program that can be written down (`Program.writable_foldFrom`), and what is read back from
its text runs as it does (`Program.reads_layout_of_writable`).

This needs no bound on the length of lists: it is seen in the code, and code with a count that is not
read back runs like itself.
-/
namespace Abacus

/-! ## Code looks at no id -/

mutual

theorem Expr.compile_bare : ∀ e : Expr, e.bare.compile = e.compile
  | .number _ _ _ => rfl
  | .var _ _ => rfl
  | .binary _ _ left right => by
    simp only [Expr.bare, Expr.compile, left.compile_bare, right.compile_bare]
  | .negate _ operand => by
    simp only [Expr.bare, Expr.compile, operand.compile_bare]
  | .call _ _ args => by
    simp only [Expr.bare, Expr.compile, Expr.compileArgs_bareAll args, Expr.length_bareAll]

theorem Expr.compileArgs_bareAll : ∀ es : List Expr,
    Expr.compileArgs (Expr.bareAll es) = Expr.compileArgs es
  | [] => rfl
  | e :: rest => by
    simp only [Expr.bareAll, Expr.compileArgs, e.compile_bare, Expr.compileArgs_bareAll rest]

end

mutual

theorem Stmt.compile_bare : ∀ s : Stmt, s.bare.compile = s.compile
  | .define _ _ params _ body => by
    have hparams : (Grammar.paramList params.names).params.length = params.params.length := by
      simp only [Grammar.paramList, List.length_map, params.length_names]
    simp only [Stmt.bare, Stmt.compile, Grammar.names_paramList, hparams,
      Stmt.compileAll_bareAll body]
  | .assign _ _ value => by
    simp only [Stmt.bare, Stmt.compile, value.compile_bare]
  | .expr e => e.compile_bare

theorem Stmt.compileAll_bareAll : ∀ ss : List Stmt,
    Stmt.compileAll (Stmt.bareAll ss) = Stmt.compileAll ss
  | [] => rfl
  | s :: rest => by
    simp only [Stmt.bareAll, Stmt.compileAll, s.compile_bare, Stmt.compileAll_bareAll rest]

end

namespace Program

theorem compile_numbered (p : Program) : p.numbered.compile = p.compile := by
  change Stmt.compileAll (ofStmts p.stmts).stmts = Stmt.compileAll p.stmts
  rw [← Stmt.compileAll_bareAll, bareAll_ofStmts, Stmt.compileAll_bareAll]

/-! ## Texts that are sources again -/

theorem layout_respell {p : Program} (h : p.Writable) : p.respell.layout = p.layout := by
  rw [layout_eq, layout_eq]
  change String.ofList (Layout.join (Layout.lineBreak 0) (Layout.stmts 0 (Stmt.respellAll p.stmts))) = _
  rw [Stmt.layoutAll_respellAll p.stmts h 0]

/-- What is read back from the text of a program that can be written down runs as the program. -/
theorem reads_layout_of_writable {p : Program} (h : p.Writable) :
    ∃ tokens q, tokenize p.layout = .ok tokens ∧ ofTokens tokens = .ok q ∧
      ∀ locals limit, q.compile.run locals limit = p.compile.run locals limit := by
  have hreadable : p.respell.Readable := Stmt.readableAll_respellAll p.stmts h
  have hreduces : Code.Reduces p.respell.compile p.compile :=
    Stmt.compileAll_respell_reduces p.stmts h
  obtain ⟨tokens, htokens, hread⟩ := reads_layout hreadable
  rw [layout_respell h] at htokens
  refine ⟨tokens, p.respell.numbered, htokens, hread, fun locals limit => ?_⟩
  rw [compile_numbered]
  exact (hreduces.run_eq locals limit).symm

end Program

/-! ## Sources that are programs -/

theorem result_parse {source : String} {tokens : List Token} (htokens : tokenize source = .ok tokens)
    (fold : Bool) :
    (parse source fold).result =
      ((Program.ofTokens tokens).mapError Failure.grammatical).map fun p =>
        if fold then p.fold else p := by
  have hreadTokens : ((readTokens source).mapError Failure.lexical).result = .ok tokens := by
    rw [readTokens, htokens]; rfl
  rw [parse, Traced.result_bind, hreadTokens]
  change Traced.result (_ >>= _) = _
  rw [Traced.result_bind, readProgram]
  cases Program.ofTokens tokens with
  | error e => rfl
  | ok p => cases fold <;> rfl

theorem reads_of_parse_fold {source : String} {fold : Bool} {p : Program}
    (h : (parse source fold).result = .ok p) :
    ∃ tokens q, tokenize source = .ok tokens ∧ Program.ofTokens tokens = .ok q ∧
      (if fold then q.fold else q) = p := by
  obtain ⟨tokens, hread, -⟩ := Traced.result_bind_ok h
  have htokens : tokenize source = .ok tokens := by
    unfold readTokens at hread
    cases heq : tokenize source with
    | error e => rw [heq] at hread; cases hread
    | ok ts => rw [heq] at hread; cases hread; rfl
  rw [result_parse htokens] at h
  cases hq : Program.ofTokens tokens with
  | error e => rw [hq] at h; cases h
  | ok q => rw [hq] at h; exact ⟨tokens, q, htokens, hq, Except.ok.inj h⟩

theorem reads_of_parse {source : String} {p : Program}
    (h : (parse source false).result = .ok p) :
    ∃ tokens, tokenize source = .ok tokens ∧ Program.ofTokens tokens = .ok p := by
  obtain ⟨tokens, q, htokens, hq, hqp⟩ := reads_of_parse_fold h
  change q = p at hqp
  exact ⟨tokens, htokens, hqp ▸ hq⟩

theorem parse_of_reads {source : String} {tokens : List Token} {p : Program}
    (htokens : tokenize source = .ok tokens) (hp : Program.ofTokens tokens = .ok p) (fold : Bool) :
    (parse source fold).result = .ok (if fold then p.fold else p) := by
  rw [result_parse htokens, hp]
  rfl

/-- Programs whose code runs alike come to the same. -/
theorem Program.evaluate_shows_of_run {p q : Program} {limit : Option Nat}
    (h : p.compile.run {} limit = q.compile.run {} limit) :
    (p.evaluate limit).Shows (q.evaluate limit) := by
  rw [p.evaluate_eq, q.evaluate_eq, h]
  exact ⟨rfl, rfl⟩

/-- **Formatting does not show.** The canonical text of a source that is a program is again one, and
whether either of the two is folded or not, they come to the same value or error after printing the
same values. -/
theorem format_correct (source : String) (hparses : ∃ p, (parse source false).result = .ok p)
    (options : Options) :
    ∃ text, (format source options).result = .ok text ∧
      (∃ q, (parse text false).result = .ok q) ∧
      ∀ formatted original : Options, formatted.maxCallDepth = original.maxCallDepth →
        (evaluate text formatted).result = (evaluate source original).result ∧
          (evaluate text formatted).printed = (evaluate source original).printed := by
  obtain ⟨p, hparse⟩ := hparses
  obtain ⟨tokens, htokens, hp⟩ := reads_of_parse hparse
  have hwritable := (Program.readable_of_reads htokens hp).writable
  obtain ⟨q, hq, hqwritable, hqrun⟩ : ∃ q, (if options.fold then p.fold else p) = q ∧
      q.Writable ∧ ∀ limit, q.compile.run {} limit = p.compile.run {} limit := by
    cases options.fold with
    | true => exact ⟨p.fold, rfl, Program.writable_foldFrom _ hwritable, p.run_foldFrom _ {}⟩
    | false => exact ⟨p, rfl, hwritable, fun _ => rfl⟩
  obtain ⟨tokens', r, htokens', hr, hrun⟩ := Program.reads_layout_of_writable hqwritable
  refine ⟨q.layout, ?_, ⟨r, parse_of_reads htokens' hr false⟩, fun formatted original hlimit => ?_⟩
  · rw [format, Traced.result_bind, parse_of_reads htokens hp, hq]
    rfl
  · have hr' := evaluate_shows_program htokens' hr formatted
    have hp' := evaluate_shows_program htokens hp original
    rw [hlimit] at hr'
    have hsame := Program.evaluate_shows_of_run
      ((hrun {} original.maxCallDepth).trans (hqrun original.maxCallDepth))
    have hshows := hr'.trans hsame
    exact ⟨hshows.result.trans hp'.result.symm, hshows.printed.trans hp'.printed.symm⟩

/-- With folding `1 - 4` becomes a literal that is negative, and the text has it in brackets. -/
theorem format_correct_negativeLiteral :
    (∃ p, (parse "x = 2\n(1 - 4) ^ x" false).result = .ok p) ∧
      (format "x = 2\n(1 - 4) ^ x" { fold := true, maxCallDepth := none }).result =
        .ok "x = 2\n(-3) ^ x" ∧
      ∀ formatted original : Options, formatted.maxCallDepth = original.maxCallDepth →
        (evaluate "x = 2\n(-3) ^ x" formatted).result =
            (evaluate "x = 2\n(1 - 4) ^ x" original).result ∧
          (evaluate "x = 2\n(-3) ^ x" formatted).printed =
            (evaluate "x = 2\n(1 - 4) ^ x" original).printed := by
  have hparses : ∃ p, (parse "x = 2\n(1 - 4) ^ x" false).result = .ok p := by
    have hsome : (parse "x = 2\n(1 - 4) ^ x" false).result.toOption.isSome = true := by
      decide +kernel
    obtain ⟨p, hp⟩ := Option.isSome_iff_exists.mp hsome
    exact ⟨p, ok_of_toOption hp⟩
  have htext : (format "x = 2\n(1 - 4) ^ x" { fold := true, maxCallDepth := none }).result =
      .ok "x = 2\n(-3) ^ x" := ok_of_toOption (by decide +kernel)
  obtain ⟨text, hformat, -, hsame⟩ := format_correct "x = 2\n(1 - 4) ^ x" hparses
    { fold := true, maxCallDepth := none }
  rw [htext] at hformat
  obtain rfl := Except.ok.inj hformat
  exact ⟨hparses, htext, hsame⟩

end Abacus
