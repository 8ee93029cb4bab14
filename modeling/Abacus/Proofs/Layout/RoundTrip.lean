import Abacus.Proofs.Grammar.Accepts
import Abacus.Proofs.Layout.Alike
import Abacus.Proofs.Layout.Statements

/-!
# Writing a program down and reading it back

A readable program is read back from its text, numbered in preorder (`Program.reads_layout`). And
every program that was read is readable (`Program.readable_of_reads`), for all that a derivation puts
into the tree comes from tokens, and tokens spell out what they are. So a program that was read is
read back from its text unchanged, and so is the text of that one (`Program.reads_layout_of_reads`).
-/
namespace Abacus

open Grammar

/-! ## What is read is readable -/

/-- Every token of the text is spelled out in the text it was cut from. -/
def AllSpelled (text : List TokenKind) : Prop :=
  ∀ kind ∈ text, kind.Spelled

theorem allSpelled_cons {kind : TokenKind} {text : List TokenKind} :
    AllSpelled (kind :: text) ↔ kind.Spelled ∧ AllSpelled text :=
  List.forall_mem_cons

theorem allSpelled_append {front back : List TokenKind} :
    AllSpelled (front ++ back) ↔ AllSpelled front ∧ AllSpelled back :=
  List.forall_mem_append

theorem AllSpelled.paramNames {names : List String} (h : AllSpelled (paramNames names)) :
    ∀ x ∈ names, Lexeme.isName x.toList = true := by
  intro x hx
  suffices hmem : TokenKind.name x ∈ Grammar.paramNames names from h _ hmem
  cases names with
  | nil => cases hx
  | cons first others =>
    rw [paramNames_cons]
    rcases List.mem_cons.mp hx with rfl | hx
    · exact List.mem_cons_self
    · exact List.mem_cons_of_mem _ (List.mem_flatMap.mpr
        ⟨x, hx, List.mem_cons_of_mem _ List.mem_cons_self⟩)

namespace Grammar

section
variable {extent : Extent}

mutual

theorem Expression.readable : ∀ {k : Nat} {text rest : List TokenKind} {e : Expr},
    Expression extent k text rest e → AllSpelled text → e.Readable ∧ AllSpelled rest
  | _, _, _, _, .operand h, htext => h.readable htext
  | _, _, _, _, .chain _ _ hleft hright, htext => by
    obtain ⟨hl, hmid⟩ := hleft.readable htext
    obtain ⟨hr, hrest⟩ := hright.readable (allSpelled_cons.mp hmid).2
    exact ⟨⟨hl, hr⟩, hrest⟩
  | _, _, _, _, .grouped h, htext => by
    obtain ⟨he, hrest⟩ := h.readable (allSpelled_cons.mp htext).2
    exact ⟨he, (allSpelled_cons.mp hrest).2⟩
  | _, _, _, _, .negated h _, htext => h.readable (allSpelled_cons.mp htext).2
  | _, _, _, _, .juxtaposed v source x rest, htext => by
    obtain ⟨hnumber, htext⟩ := allSpelled_cons.mp htext
    obtain ⟨hname, hrest⟩ := allSpelled_cons.mp htext
    exact ⟨⟨⟨source, rfl, isLiteral_iff.mpr hnumber⟩, hname⟩, hrest⟩
  | _, _, _, _, .emptyCall f rest, htext => by
    simp only [allSpelled_cons] at htext
    exact ⟨⟨htext.1, trivial⟩, htext.2.2.2⟩
  | _, _, _, _, .call f h, htext => by
    simp only [allSpelled_cons] at htext
    obtain ⟨hargs, hrest⟩ := h.readable htext.2.2
    exact ⟨⟨htext.1, hargs⟩, (allSpelled_cons.mp hrest).2⟩
  | _, _, _, _, .var _ _, htext => allSpelled_cons.mp htext
  | _, _, _, _, .number v source rest, htext => by
    obtain ⟨hnumber, hrest⟩ := allSpelled_cons.mp htext
    exact ⟨⟨source, rfl, isLiteral_iff.mpr hnumber⟩, hrest⟩

theorem Arguments.readable : ∀ {text rest : List TokenKind} {es : List Expr},
    Arguments extent text rest es → AllSpelled text → Expr.ReadableAll es ∧ AllSpelled rest
  | _, _, _, .one h, htext => by
    obtain ⟨he, hrest⟩ := h.readable htext
    exact ⟨⟨he, trivial⟩, hrest⟩
  | _, _, _, .more h hmore, htext => by
    obtain ⟨he, hmid⟩ := h.readable htext
    obtain ⟨hes, hrest⟩ := hmore.readable (allSpelled_cons.mp hmid).2
    exact ⟨⟨he, hes⟩, hrest⟩

end

theorem allSpelled_defineHead {f : String} {names : List String} {text : List TokenKind}
    (h : AllSpelled (defineHead f names text)) :
    Lexeme.isName f.toList = true ∧ (∀ x ∈ names, Lexeme.isName x.toList = true) ∧
      AllSpelled text := by
  simp only [defineHead, allSpelled_cons, allSpelled_append] at h
  obtain ⟨hf, -, hnames, -, -, htext⟩ := h
  exact ⟨hf, hnames.paramNames, htext⟩

mutual

theorem Statement.readable : ∀ {text rest : List TokenKind} {s : Stmt},
    Statement extent text rest s → AllSpelled text → s.Readable ∧ AllSpelled rest
  | _, _, _, .define f params hf h, htext => by
    obtain ⟨hname, hparams, hbody⟩ := allSpelled_defineHead htext
    obtain ⟨hs, hrest⟩ := h.readable hbody
    rw [← names_paramList params] at hparams
    exact ⟨⟨hname, hf, hparams, hs, trivial⟩, hrest⟩
  | _, _, _, .defineBlock f params hf h, htext => by
    obtain ⟨hname, hparams, hbody⟩ := allSpelled_defineHead htext
    simp only [allSpelled_cons] at hbody
    obtain ⟨hss, hrest⟩ := h.readable hbody.2.2
    rw [← names_paramList params] at hparams
    exact ⟨⟨hname, hf, hparams, hss⟩, (allSpelled_cons.mp hrest).2⟩
  | _, _, _, .assign x h, htext => by
    simp only [allSpelled_cons] at htext
    obtain ⟨he, hrest⟩ := h.readable htext.2.2
    exact ⟨⟨htext.1, he⟩, hrest⟩
  | _, _, _, .expr h, htext => h.readable htext

theorem Statements.readable : ∀ {text rest : List TokenKind} {ss : List Stmt},
    Statements extent text rest ss → AllSpelled text → Stmt.ReadableAll ss ∧ AllSpelled rest
  | _, _, _, .empty _, htext => ⟨trivial, htext⟩
  | _, _, _, .last h, htext => by
    obtain ⟨hs, hrest⟩ := h.readable htext
    exact ⟨⟨hs, trivial⟩, hrest⟩
  | _, _, _, .more h hmore, htext => by
    obtain ⟨hs, hmid⟩ := h.readable htext
    obtain ⟨hss, hrest⟩ := hmore.readable (allSpelled_cons.mp hmid).2
    exact ⟨⟨hs, hss⟩, hrest⟩

end
end

end Grammar

namespace Program

theorem readable_of_reads {source : String} {tokens : List Token} {p : Program}
    (htokens : tokenize source = .ok tokens) (hp : ofTokens tokens = .ok p) : p.Readable := by
  obtain ⟨ss, hss, rfl⟩ := ofTokens_eq_ok.mp hp
  have hspelled : AllSpelled (kinds tokens) := by
    intro kind hkind
    obtain ⟨t, ht, rfl⟩ := List.mem_map.mp hkind
    exact spelled_of_tokenize htokens t ht
  exact (readable_ofStmts ss).mpr (hss.readable hspelled).1

/-! ## What is readable is read back -/

theorem layout_eq (p : Program) :
    p.layout = String.ofList (Layout.join (Layout.lineBreak 0) (Layout.stmts 0 p.stmts)) := rfl

/-- The tokens of the text are derived as the program without its ids. -/
theorem derives_layout {p : Program} (h : p.Readable) :
    ∃ tokens, tokenize p.layout = .ok tokens ∧
      Statements .closed (kinds tokens) [] (Stmt.bareAll p.stmts) := by
  rw [layout_eq]
  by_cases hempty : p.stmts = []
  · rw [hempty]
    exact ⟨[], rfl, .empty []⟩
  · obtain ⟨ks, hspells, hderives⟩ := Stmt.writesAll p.stmts h hempty 0
    have hscans := hspells.scans .nil Scans.nil
    rw [List.append_nil, List.append_nil] at hscans
    obtain ⟨tokens, htokens, hkinds⟩ := hscans.tokenize hspells.solid
    have hss := (hderives []).1 (Follow.nil (k := 1)).noOperator
    rw [List.append_nil, ← hkinds] at hss
    exact ⟨tokens, htokens, hss⟩

theorem reads_layout {p : Program} (h : p.Readable) :
    ∃ tokens, tokenize p.layout = .ok tokens ∧ ofTokens tokens = .ok p.numbered := by
  obtain ⟨tokens, htokens, hss⟩ := derives_layout h
  refine ⟨tokens, htokens, ofTokens_eq_ok.mpr ⟨_, hss, ?_⟩⟩
  simp only [numbered, ofStmts, Stmt.numberAllFrom_bareAll]

/-- A program that was read is read back from its text as it is, ids included. -/
theorem reads_layout_of_reads {source : String} {tokens : List Token} {p : Program}
    (htokens : tokenize source = .ok tokens) (hp : ofTokens tokens = .ok p) :
    ∃ tokens', tokenize p.layout = .ok tokens' ∧ ofTokens tokens' = .ok p := by
  obtain ⟨tokens', htokens', hread⟩ := reads_layout (readable_of_reads htokens hp)
  obtain ⟨ss, -, rfl⟩ := ofTokens_eq_ok.mp hp
  rw [numbered_ofStmts] at hread
  exact ⟨tokens', htokens', hread⟩

/-- **Writing down and reading back gives the tree back**: the text of a readable program is read as
a program that is like it and differs from it in its ids alone, and every program that was read is
readable. -/
theorem layout_correct :
    (∀ p : Program, p.Readable → ∃ tokens q, tokenize p.layout = .ok tokens ∧
      ofTokens tokens = .ok q ∧ p.alike q = true ∧ q = p.numbered) ∧
    ∀ (source : String) (tokens : List Token) (p : Program), tokenize source = .ok tokens →
      ofTokens tokens = .ok p → p.Readable := by
  refine ⟨fun p h => ?_, fun source tokens p => readable_of_reads⟩
  obtain ⟨tokens, htokens, hread⟩ := reads_layout h
  exact ⟨tokens, p.numbered, htokens, hread, alike_of_bareAll_eq h (bareAll_ofStmts p.stmts), rfl⟩

/-- `f(x) = 2x ^ (-x)`, then `f(1,000)`. -/
def doubledPower : Program :=
  .ofStmts
    [ .define unnumbered "f" (paramList ["x"]) unnumbered
        [.expr (.binary unnumbered .exponentiate
          (.binary unnumbered .multiply (.number unnumbered 2 (some "2")) (.var unnumbered "x"))
          (.negate unnumbered (.var unnumbered "x")))],
      .expr (.call unnumbered "f" [.number unnumbered 1000 (some "1,000")]) ]

theorem layout_correct_doubledPower :
    doubledPower.Readable ∧ doubledPower.layout = "f(x) = 2x ^ (-x)\nf(1,000)" ∧
      ∃ tokens q, tokenize doubledPower.layout = .ok tokens ∧ ofTokens tokens = .ok q ∧
        doubledPower.alike q = true ∧ q = doubledPower.numbered := by
  have htwo : IsLiteral 2 "2" := ⟨_, rfl, rfl⟩
  have hthousand : IsLiteral 1000 "1,000" := ⟨_, rfl, rfl⟩
  have hx : Lexeme.isName "x".toList = true := by decide
  have hreadable : doubledPower.Readable :=
    ⟨⟨by decide, by decide, by decide, ⟨⟨⟨"2", rfl, htwo⟩, hx⟩, hx⟩, trivial⟩,
      ⟨by decide, ⟨"1,000", rfl, hthousand⟩, trivial⟩, trivial⟩
  exact ⟨hreadable, by decide, layout_correct.1 doubledPower hreadable⟩

end Program
end Abacus
