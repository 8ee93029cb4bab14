import Abacus.Proofs.Flow.Corresponding
import Abacus.Proofs.Formatting
import Abacus.Proofs.Grammar.Drawn

/-!
# The ids of a program

Ids tell the nodes of a program apart, and that is all there is to them. A program that was read has
different ids, whether they count its nodes or come from a supply that abandoned alternatives and
other programs draw from as well, and also when its constants are folded; and the check finds the same
mismatches at the same places whatever the ids are, as long as they are different
(`ids_correct`).
-/
namespace Abacus

/-! ## Numbering -/

mutual

theorem Expr.draws_numberFrom : ∀ (next : NodeId) (e : Expr),
    Draws [] (e.numberFrom next).1.nodeIds next (e.numberFrom next).2
  | next, .number _ _ _ => .fresh [] next
  | next, .var _ _ => .fresh [] next
  | next, .binary _ _ left right => (Draws.fresh [] next).append <|
    (left.draws_numberFrom (next + 1)).append (right.draws_numberFrom (left.numberFrom (next + 1)).2)
  | next, .negate _ operand => (Draws.fresh [] next).append (operand.draws_numberFrom (next + 1))
  | next, .call _ _ args => (Draws.fresh [] next).append (Expr.draws_numberAllFrom (next + 1) args)

theorem Expr.draws_numberAllFrom : ∀ (next : NodeId) (es : List Expr),
    Draws [] (Expr.nodeIdsAll (Expr.numberAllFrom next es).1) next (Expr.numberAllFrom next es).2
  | next, [] => .refl [] next
  | next, e :: rest =>
    (e.draws_numberFrom next).append (Expr.draws_numberAllFrom (e.numberFrom next).2 rest)

end

theorem ParamList.draws_numberFrom (next : NodeId) (ps : ParamList) :
    Draws [] (ps.numberFrom next).1.nodeIds next (ps.numberFrom next).2 := by
  have hids : (ps.numberFrom next).1.nodeIds = next :: List.range' (next + 1) ps.params.length := by
    refine congrArg (next :: ·) (List.ext_getElem ?_ ?_)
    · simp only [numberFrom, List.length_map, List.length_mapIdx, List.length_range']
    · intro i _ _
      simp only [numberFrom, List.getElem_map, List.getElem_mapIdx, List.getElem_range', Nat.one_mul]
  rw [hids]
  exact (Draws.fresh [] next).append (.range (next + 1) ps.params.length)

mutual

theorem Stmt.draws_numberFrom : ∀ (next : NodeId) (s : Stmt),
    Draws [] (s.numberFrom next).1.nodeIds next (s.numberFrom next).2
  | next, .define _ _ params _ body =>
    (Draws.fresh [] next).append <| (params.draws_numberFrom (next + 1)).append <|
      (Draws.fresh [] (params.numberFrom (next + 1)).2).append <|
        Stmt.draws_numberAllFrom ((params.numberFrom (next + 1)).2 + 1) body
  | next, .assign _ _ value => (Draws.fresh [] next).append (value.draws_numberFrom (next + 1))
  | next, .expr e => e.draws_numberFrom next

theorem Stmt.draws_numberAllFrom : ∀ (next : NodeId) (ss : List Stmt),
    Draws [] (Stmt.nodeIdsAll (Stmt.numberAllFrom next ss).1) next (Stmt.numberAllFrom next ss).2
  | next, [] => .refl [] next
  | next, s :: rest =>
    (s.draws_numberFrom next).append (Stmt.draws_numberAllFrom (s.numberFrom next).2 rest)

end

/-- The ids of a numbered program are different. -/
theorem Program.nodup_ofStmts (ss : List Stmt) : (Program.ofStmts ss).nodeIds.Nodup := by
  have hdraws : Draws [] (Program.ofStmts ss).nodeIds 0 (Stmt.numberAllFrom 2 ss).2 :=
    (Draws.fresh [] 0).append ((Draws.fresh [] 1).append (Stmt.draws_numberAllFrom 2 ss))
  exact hdraws.nodup

/-! ## Folding looks at no id -/

theorem Expr.value?_bare (e : Expr) : e.bare.value? = e.value? := by
  cases e <;> rfl

theorem bare_literalOr {kept kept' : Expr} (h : kept.bare = kept'.bare) (value : Option Float)
    (next next' : NodeId) :
    (literalOr next value kept).1.bare = (literalOr next' value kept').1.bare := by
  unfold literalOr
  cases value with
  | none => exact h
  | some v =>
    dsimp only
    split
    · rfl
    · exact h

mutual

theorem Expr.bare_foldFrom : ∀ (e : Expr) (next next' : NodeId),
    (e.foldFrom next).1.bare = (e.bare.foldFrom next').1.bare
  | .number _ _ _, _, _ => rfl
  | .var _ _, _, _ => rfl
  | .binary _ op left right, next, next' => by
    have hleft := left.bare_foldFrom next next'
    have hright := right.bare_foldFrom (left.foldFrom next).2 (left.bare.foldFrom next').2
    have hvalue : op.fold? (left.foldFrom next).1 (right.foldFrom (left.foldFrom next).2).1 =
        op.fold? (left.bare.foldFrom next').1
          (right.bare.foldFrom (left.bare.foldFrom next').2).1 := by
      unfold Operator.fold?
      rw [← Expr.value?_bare, hleft, Expr.value?_bare, ← Expr.value?_bare (right.foldFrom _).1,
        hright, Expr.value?_bare]
    simp only [Expr.foldFrom, Expr.bare, hvalue]
    refine bare_literalOr ?_ _ _ _
    simp only [Expr.bare, hleft, hright]
  | .negate _ operand, next, next' => by
    have hoperand := operand.bare_foldFrom next next'
    have hvalue : (operand.foldFrom next).1.value? = (operand.bare.foldFrom next').1.value? := by
      rw [← Expr.value?_bare, hoperand, Expr.value?_bare]
    simp only [Expr.foldFrom, Expr.bare, hvalue]
    refine bare_literalOr ?_ _ _ _
    simp only [Expr.bare, hoperand]
  | .call _ f args, next, next' =>
    congrArg (Expr.call unnumbered f) (Expr.bareAll_foldAllFrom args next next')

theorem Expr.bareAll_foldAllFrom : ∀ (es : List Expr) (next next' : NodeId),
    Expr.bareAll (Expr.foldAllFrom next es).1 =
      Expr.bareAll (Expr.foldAllFrom next' (Expr.bareAll es)).1
  | [], _, _ => rfl
  | e :: rest, next, next' =>
    congrArg₂ List.cons (e.bare_foldFrom next next') (Expr.bareAll_foldAllFrom rest _ _)

end

mutual

theorem Stmt.bare_foldFrom : ∀ (s : Stmt) (next next' : NodeId),
    (s.foldFrom next).1.bare = (s.bare.foldFrom next').1.bare
  | .define _ f params _ body, next, next' => by
    have hbody := Stmt.bareAll_foldAllFrom body next next'
    simp only [Stmt.foldFrom, Stmt.bare, hbody, Grammar.names_paramList]
  | .assign _ x value, next, next' =>
    congrArg (Stmt.assign unnumbered x) (value.bare_foldFrom next next')
  | .expr e, next, next' => congrArg Stmt.expr (e.bare_foldFrom next next')

theorem Stmt.bareAll_foldAllFrom : ∀ (ss : List Stmt) (next next' : NodeId),
    Stmt.bareAll (Stmt.foldAllFrom next ss).1 =
      Stmt.bareAll (Stmt.foldAllFrom next' (Stmt.bareAll ss)).1
  | [], _, _ => rfl
  | s :: rest, next, next' =>
    congrArg₂ List.cons (s.bare_foldFrom next next') (Stmt.bareAll_foldAllFrom rest _ _)

end

/-- Programs that are the same but for the ids still are when they are folded. -/
theorem Program.bareAll_foldFrom {p q : Program} (h : Stmt.bareAll p.stmts = Stmt.bareAll q.stmts)
    (next next' : NodeId) :
    Stmt.bareAll (p.foldFrom next).1.stmts = Stmt.bareAll (q.foldFrom next').1.stmts := by
  change Stmt.bareAll (Stmt.foldAllFrom next p.stmts).1 =
    Stmt.bareAll (Stmt.foldAllFrom next' q.stmts).1
  rw [Stmt.bareAll_foldAllFrom p.stmts next 0, h, ← Stmt.bareAll_foldAllFrom q.stmts next' 0]

/-! ## Programs of a source -/

/-- What is read with ids from the supply is what is read with ids by position, but for the ids. Those
from the supply are different and were drawn for it. -/
theorem parseFrom_follows (next : NodeId) (source : String) (fold : Bool) :
    (∃ e, (parse source fold).result = .error e ∧ (parseFrom next source fold).1 = .error e) ∨
      ∃ p q, (parse source fold).result = .ok p ∧ (parseFrom next source fold).1 = .ok q ∧
        Stmt.bareAll q.stmts = Stmt.bareAll p.stmts ∧
          Draws [] q.nodeIds next (parseFrom next source fold).2 := by
  unfold parseFrom
  cases htokens : tokenize source with
  | error e =>
    refine .inl ⟨.lexical e, ?_, rfl⟩
    rw [parse, Traced.result_bind, readTokens, htokens]
    rfl
  | ok tokens =>
    rw [result_parse htokens]
    dsimp only
    rcases Program.ofTokensFrom_follows next tokens with
      ⟨e, after, herror, hdrawn⟩ | ⟨p, q, after, hp, hq, hsame, hdraws⟩
    · rw [herror, hdrawn]
      exact .inl ⟨.grammatical e, rfl, rfl⟩
    · rw [hp, hq]
      refine .inr ?_
      cases fold with
      | false => exact ⟨p, q, rfl, rfl, hsame, hdraws⟩
      | true =>
        refine ⟨p.fold, (q.foldFrom after).1, rfl, rfl, Program.bareAll_foldFrom hsame _ _, ?_⟩
        have hfold : Draws q.nodeIds (q.foldFrom after).1.nodeIds after (q.foldFrom after).2 :=
          ((Stmt.count_foldAllFrom after q.stmts).cons q.body.id).cons q.id
        exact hdraws.trans hfold

theorem nodup_parse {source : String} {fold : Bool} {p : Program}
    (h : (parse source fold).result = .ok p) : p.nodeIds.Nodup := by
  obtain ⟨tokens, q, -, hq, rfl⟩ := reads_of_parse_fold h
  obtain ⟨ss, rfl⟩ : ∃ ss, Program.ofStmts ss = q := by
    unfold Program.ofTokens at hq
    cases hread : (Rule.readAll tokens).result with
    | error e => rw [hread] at hq; cases hq
    | ok ss => rw [hread] at hq; exact ⟨ss, Except.ok.inj hq⟩
  have hnodup := Program.nodup_ofStmts ss
  cases fold with
  | false => exact hnodup
  | true => exact Program.nodup_fold hnodup

/-- Ids below `2 ^ 32` stay different when they have 32 bits. -/
theorem nodup_ofNat {ids : List NodeId} (h : ids.Nodup) (hlt : ∀ id ∈ ids, id < 2 ^ 32) :
    (ids.map UInt32.ofNat).Nodup := by
  refine h.map_on fun i hi j hj heq => ?_
  have hnat := congrArg UInt32.toNat heq
  rwa [UInt32.toNat_ofNat_of_lt' (hlt i hi), UInt32.toNat_ofNat_of_lt' (hlt j hj)] at hnat

/-- **Ids only tell nodes apart.** What a source gives with ids from a supply is what it gives with ids
by position, but for the ids, and as long as at most `2 ^ 32` were drawn they are different, folded or
not. Programs that are alike, each with different ids, have mismatches of the same kinds in the same
order at the same places. -/
theorem ids_correct :
    (∀ (next : NodeId) (source : String) (fold : Bool),
      (parseFrom next source fold).1.map (fun p => Stmt.bareAll p.stmts) =
          (parse source fold).result.map (fun p => Stmt.bareAll p.stmts) ∧
        (∀ p, (parse source fold).result = .ok p → p.nodeIds.Nodup) ∧
        ∀ p, (parseFrom next source fold).1 = .ok p → (parseFrom next source fold).2 ≤ 2 ^ 32 →
          (p.nodeIds.map UInt32.ofNat).Nodup) ∧
      ∀ p q : Program, p.alike q = true → p.nodeIds.Nodup → q.nodeIds.Nodup →
        List.Forall₂ (fun m m' => m.expected = m'.expected ∧ m.found = m'.found ∧
          Option.Rel (p.SamePlace q) m.node m'.node) p.mismatches q.mismatches := by
  refine ⟨fun next source fold => ⟨?_, fun p => nodup_parse, fun p hp hnext => ?_⟩,
    fun p q halike hp hq => ?_⟩
  · rcases parseFrom_follows next source fold with
      ⟨e, hparse, hdrawn⟩ | ⟨p, q, hparse, hdrawn, hsame, -⟩
    · rw [hparse, hdrawn]
    · rw [hparse, hdrawn]
      exact congrArg Except.ok hsame
  · rcases parseFrom_follows next source fold with ⟨e, -, hdrawn⟩ | ⟨_, q, -, hdrawn, -, hdraws⟩
    · rw [hdrawn] at hp
      cases hp
    · rw [hdrawn] at hp
      cases hp
      exact nodup_ofNat hdraws.nodup fun id hid => Nat.lt_of_lt_of_le (hdraws.lt hid) hnext
  · exact (Program.corresponds_mismatches halike hp hq).imp fun m m' h =>
      ⟨h.expected, h.found, h.node⟩

/-- `f(y)` is first read as the head of a definition, the parameter of which draws 7 for nothing. The
mismatch of `a = b` is at the program, whatever the ids. -/
theorem ids_correct_abandoned :
    (∃ p q, (parse "f(y)" false).result = .ok p ∧ parseFrom 7 "f(y)" false = (.ok q, 12) ∧
      p.nodeIds.Nodup ∧ q.nodeIds = [11, 10, 9, 8] ∧ (q.nodeIds.map UInt32.ofNat).Nodup) ∧
    ∃ p q : Program, p.nodeIds = [0, 1, 2, 3] ∧ q.nodeIds = [13, 12, 11, 10] ∧
      p.mismatches = [{ expected := .undefined, found := .number, node := some 0 }] ∧
      List.Forall₂ (fun m m' => m.expected = m'.expected ∧ m.found = m'.found ∧
        Option.Rel (p.SamePlace q) m.node m'.node) p.mismatches q.mismatches := by
  have hnumbered : (parse "f(y)" false).result = .ok
      { id := 0, body := { id := 1, stmts := [.expr (.call 2 "f" [.var 3 "y"])] } } := rfl
  have hdrawn : parseFrom 7 "f(y)" false = (.ok
      { id := 11, body := { id := 10, stmts := [.expr (.call 9 "f" [.var 8 "y"])] } }, 12) := rfl
  obtain ⟨-, hnodup, hdistinct⟩ := ids_correct.1 7 "f(y)" false
  refine ⟨⟨_, _, hnumbered, hdrawn, hnodup _ hnumbered, rfl, ?_⟩, ?_⟩
  · exact hdistinct _ (congrArg Prod.fst hdrawn) (by rw [hdrawn]; decide)
  · exact ⟨{ id := 0, body := { id := 1, stmts := [.assign 2 "a" (.var 3 "b")] } },
      { id := 13, body := { id := 12, stmts := [.assign 11 "a" (.var 10 "b")] } },
      rfl, rfl, by decide +kernel, ids_correct.2 _ _ rfl (by decide) (by decide)⟩

end Abacus
