import Abacus.Proofs.Layout.Expressions

/-!
# The text of a statement is read as the statement

As for expressions: the text of a readable statement spells tokens that are derived as the statement
wherever no operator follows (`Stmt.writes`). Statements on lines of their own are a statement list,
and still one with a line end behind the last of them, which is how a body stands in its braces.
-/
namespace Abacus

open Grammar
open Lexeme (isName)

def Stmt.WrittenAs (text : List Char) (s : Stmt) : Prop :=
  ∃ kinds, Spells text kinds ∧ ∀ rest, NoOperator rest → Statement .closed (kinds ++ rest) rest s

/-- The text is a statement list, at the end of what it stands in or before another line. -/
def Stmt.WrittenLines (text : List Char) (ss : List Stmt) : Prop :=
  ∃ kinds, Spells text kinds ∧ ∀ rest,
    (NoOperator rest → Statements .closed (kinds ++ rest) rest ss) ∧
      Statements .closed (kinds ++ .newline :: rest) rest ss

/-! ## Heads of definitions -/

theorem spells_paramNames : ∀ names : List String, (∀ x ∈ names, isName x.toList = true) →
    Spells.OrNil (Layout.join [',', ' '] (names.map String.toList)) (paramNames names)
  | [], _ => .inl ⟨rfl, rfl⟩
  | [x], h => .inr (Spells.name (h x List.mem_cons_self))
  | x :: y :: rest, h => by
    have hx := Spells.name (h x List.mem_cons_self)
    rcases spells_paramNames (y :: rest) (fun z hz => h z (List.mem_cons_of_mem _ hz)) with
      ⟨-, hnil⟩ | hrest
    · rw [paramNames_cons] at hnil
      cases hnil
    · exact .inr (hx.comma hrest)

section
variable {f : String} {params : ParamList} {body : List Char} {kinds : List TokenKind}

theorem Layout.head_append (f : String) (params : ParamList) (body : List Char) :
    head f params ++ body =
      (f.toList ++ '(' :: (join [',', ' '] (params.names.map String.toList) ++ [')'])) ++
        ' ' :: Symbol.equals.char :: ' ' :: body := by
  simp only [head, Symbol.char, List.append_assoc, List.cons_append, List.nil_append]

/-- The head of a definition in front of its body. -/
theorem Spells.define (hf : isName f.toList = true)
    (hparams : ∀ x ∈ params.names, isName x.toList = true) (hbody : Spells body kinds) :
    Spells (Layout.head f params ++ body) (defineHead f params.names kinds) := by
  have hhead := (Spells.applied hf (spells_paramNames params.names hparams)).between .equals hbody
  rw [Layout.head_append]
  simpa only [defineHead, List.append_assoc, List.cons_append, List.nil_append] using hhead

theorem defineHead_append (f : String) (names : List String) (kinds rest : List TokenKind) :
    defineHead f names kinds ++ rest = defineHead f names (kinds ++ rest) := by
  simp only [defineHead, List.append_assoc, List.cons_append]

end

/-! ## Statements -/

mutual

/-- The text of a readable statement is read as the statement. -/
theorem Stmt.writes : ∀ s : Stmt, s.Readable → ∀ depth : Nat,
    Stmt.WrittenAs (Layout.stmt depth s) s.bare
  | .define _ f params _ [], h, depth => by
    obtain ⟨hname, hown, hparams, -⟩ := h
    refine ⟨_, Spells.define hname hparams (Spells.emptyBlock depth), fun rest _ => ?_⟩
    rw [defineHead_append]
    exact .defineBlock f params.names hown (.empty _)
  | .define _ f params _ [single], h, depth => by
    obtain ⟨hname, hown, hparams, hbody⟩ := h
    obtain ⟨kinds, hspells, hderives⟩ := single.writes hbody.1 depth
    refine ⟨_, Spells.define hname hparams hspells, fun rest hrest => ?_⟩
    rw [defineHead_append]
    exact .define f params.names hown (hderives rest hrest)
  | .define _ f params _ (s :: s' :: body), h, depth => by
    obtain ⟨hname, hown, hparams, hbody⟩ := h
    obtain ⟨kinds, hspells, hderives⟩ :=
      Stmt.writesAll (s :: s' :: body) hbody (List.cons_ne_nil _ _) (depth + 1)
    refine ⟨_, Spells.define hname hparams (hspells.block (depth + 1) depth), fun rest _ => ?_⟩
    rw [defineHead_append]
    simp only [List.append_assoc, List.cons_append, List.nil_append]
    exact .defineBlock f params.names hown (hderives _).2
  | .assign _ x value, h, depth => by
    obtain ⟨kinds, hspells, hderives⟩ := value.writes h.2 (Nat.zero_le 4)
    refine ⟨_, (Spells.name h.1).between .equals hspells, fun rest hrest => ?_⟩
    exact .assign x (hderives rest fun _ => hrest)
  | .expr e, h, depth => by
    obtain ⟨kinds, hspells, hderives⟩ := e.writes h (Nat.zero_le 4)
    exact ⟨kinds, hspells, fun rest hrest => .expr (hderives rest fun _ => hrest)⟩

theorem Stmt.writesAll : ∀ ss : List Stmt, Stmt.ReadableAll ss → ss ≠ [] → ∀ depth : Nat,
    Stmt.WrittenLines (Layout.join (Layout.lineBreak depth) (Layout.stmts depth ss))
      (Stmt.bareAll ss)
  | [], _, hne, _ => absurd rfl hne
  | [s], h, _, depth => by
    obtain ⟨kinds, hspells, hderives⟩ := s.writes h.1 depth
    refine ⟨kinds, hspells, fun rest => ⟨fun hrest => .last (hderives rest hrest), ?_⟩⟩
    exact .more (hderives _ (Follow.newline (k := 1) rest).noOperator) (.empty rest)
  | s :: s' :: ss, h, _, depth => by
    obtain ⟨kinds, hspells, hderives⟩ := s.writes h.1 depth
    obtain ⟨kinds', hspells', hderives'⟩ :=
      Stmt.writesAll (s' :: ss) h.2 (List.cons_ne_nil _ _) depth
    refine ⟨_, hspells.lines depth hspells', fun rest => ?_⟩
    have hfirst : ∀ mid, Statement .closed (kinds ++ .newline :: mid) (.newline :: mid) s.bare :=
      fun mid => hderives _ (Follow.newline (k := 1) mid).noOperator
    simp only [List.append_assoc, List.cons_append]
    exact ⟨fun hrest => .more (hfirst _) ((hderives' rest).1 hrest),
      .more (hfirst _) (hderives' rest).2⟩

end

end Abacus
