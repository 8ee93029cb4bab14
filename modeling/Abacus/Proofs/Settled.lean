import Abacus.Proofs.Fresh

/-!
# Trees with nothing left to fold

In a settled tree no operator between literals has a finite value. Folding goes from the leaves up,
so what it leaves is settled (`Expr.settled_foldFrom`): a node that was kept has folded operands and a
value that no literal has, or none.
-/
namespace Abacus

/-- There is no literal of this value: it is not known, or it is not finite. -/
def NoLiteral (value : Option Float) : Prop :=
  ∀ v, value = some v → v.isFinite = false

theorem noLiteral_none : NoLiteral none := by
  intro v h
  cases h

theorem literalOr_of_noLiteral {value : Option Float} (h : NoLiteral value) (next : NodeId)
    (kept : Expr) : literalOr next value kept = (kept, next) := by
  cases value with
  | none => rfl
  | some v => simp [literalOr, h v rfl]

mutual

def Expr.Settled : Expr → Prop
  | .number _ _ _ => True
  | .var _ _ => True
  | .binary _ op left right => left.Settled ∧ right.Settled ∧ NoLiteral (op.fold? left right)
  | .negate _ operand => operand.Settled ∧ NoLiteral (operand.value?.map (- ·))
  | .call _ _ args => Expr.SettledAll args

def Expr.SettledAll : List Expr → Prop
  | [] => True
  | e :: rest => e.Settled ∧ Expr.SettledAll rest

end

mutual

def Stmt.Settled : Stmt → Prop
  | .define _ _ _ _ body => Stmt.SettledAll body
  | .assign _ _ value => value.Settled
  | .expr e => e.Settled

def Stmt.SettledAll : List Stmt → Prop
  | [] => True
  | s :: rest => s.Settled ∧ Stmt.SettledAll rest

end

/-- No operator of the program has a finite value that is known. -/
def Program.Settled (p : Program) : Prop :=
  Stmt.SettledAll p.stmts

/-! ## Folding settles -/

theorem Expr.settled_literalOr {value : Option Float} {kept : Expr}
    (h : NoLiteral value → kept.Settled) (next : NodeId) :
    (literalOr next value kept).1.Settled := by
  cases value with
  | none => exact h noLiteral_none
  | some v =>
    by_cases hfinite : v.isFinite = true
    · simp only [literalOr, hfinite, if_true, Expr.Settled]
    · have hvalue : NoLiteral (some v) := by
        rintro w ⟨⟩
        exact Bool.eq_false_iff.mpr hfinite
      rw [literalOr_of_noLiteral hvalue]
      exact h hvalue

mutual

theorem Expr.settled_foldFrom : ∀ (e : Expr) (next : NodeId), (e.foldFrom next).1.Settled
  | .number _ _ _, _ => trivial
  | .var _ _, _ => trivial
  | .binary _ _ left right, _ => by
    unfold Expr.foldFrom
    refine Expr.settled_literalOr (fun hvalue => ?_) _
    exact ⟨left.settled_foldFrom _, right.settled_foldFrom _, hvalue⟩
  | .negate _ operand, next => by
    unfold Expr.foldFrom
    refine Expr.settled_literalOr (fun hvalue => ?_) _
    exact ⟨operand.settled_foldFrom next, hvalue⟩
  | .call _ _ args, _ => Expr.settledAll_foldAllFrom args _

theorem Expr.settledAll_foldAllFrom : ∀ (es : List Expr) (next : NodeId),
    Expr.SettledAll (Expr.foldAllFrom next es).1
  | [], _ => trivial
  | e :: rest, _ => ⟨e.settled_foldFrom _, Expr.settledAll_foldAllFrom rest _⟩

end

mutual

theorem Stmt.settled_foldFrom : ∀ (s : Stmt) (next : NodeId), (s.foldFrom next).1.Settled
  | .define _ _ _ _ body, _ => Stmt.settledAll_foldAllFrom body _
  | .assign _ _ value, next => value.settled_foldFrom next
  | .expr e, next => e.settled_foldFrom next

theorem Stmt.settledAll_foldAllFrom : ∀ (ss : List Stmt) (next : NodeId),
    Stmt.SettledAll (Stmt.foldAllFrom next ss).1
  | [], _ => trivial
  | s :: rest, _ => ⟨s.settled_foldFrom _, Stmt.settledAll_foldAllFrom rest _⟩

end

/-- A folded program has nothing left to fold. -/
theorem Program.settled_fold (p : Program) : p.fold.Settled :=
  Stmt.settledAll_foldAllFrom p.stmts _

/-! ## Folding leaves settled trees alone -/

mutual

theorem Expr.foldFrom_of_settled : ∀ (e : Expr) (next : NodeId), e.Settled →
    e.foldFrom next = (e, next)
  | .number _ _ _, _, _ => rfl
  | .var _ _, _, _ => rfl
  | .binary _ _ left right, next, ⟨hleft, hright, hvalue⟩ => by
    rw [Expr.foldFrom, left.foldFrom_of_settled next hleft]
    dsimp only
    rw [right.foldFrom_of_settled next hright]
    exact literalOr_of_noLiteral hvalue next _
  | .negate _ operand, next, ⟨hoperand, hvalue⟩ => by
    rw [Expr.foldFrom, operand.foldFrom_of_settled next hoperand]
    exact literalOr_of_noLiteral hvalue next _
  | .call _ _ args, next, h => by
    rw [Expr.foldFrom, Expr.foldAllFrom_of_settled args next h]

theorem Expr.foldAllFrom_of_settled : ∀ (es : List Expr) (next : NodeId), Expr.SettledAll es →
    Expr.foldAllFrom next es = (es, next)
  | [], _, _ => rfl
  | e :: rest, next, ⟨he, hrest⟩ => by
    rw [Expr.foldAllFrom, e.foldFrom_of_settled next he]
    dsimp only
    rw [Expr.foldAllFrom_of_settled rest next hrest]

end

mutual

theorem Stmt.foldFrom_of_settled : ∀ (s : Stmt) (next : NodeId), s.Settled →
    s.foldFrom next = (s, next)
  | .define _ _ _ _ body, next, h => by
    rw [Stmt.foldFrom, Stmt.foldAllFrom_of_settled body next h]
  | .assign _ _ value, next, h => by
    rw [Stmt.foldFrom, value.foldFrom_of_settled next h]
  | .expr e, next, h => by
    rw [Stmt.foldFrom, e.foldFrom_of_settled next h]

theorem Stmt.foldAllFrom_of_settled : ∀ (ss : List Stmt) (next : NodeId), Stmt.SettledAll ss →
    Stmt.foldAllFrom next ss = (ss, next)
  | [], _, _ => rfl
  | s :: rest, next, ⟨hs, hrest⟩ => by
    rw [Stmt.foldAllFrom, s.foldFrom_of_settled next hs]
    dsimp only
    rw [Stmt.foldAllFrom_of_settled rest next hrest]

end

namespace Program

theorem foldFrom_of_settled {p : Program} (h : p.Settled) (next : NodeId) :
    p.foldFrom next = (p, next) := by
  have hstmts := Stmt.foldAllFrom_of_settled p.stmts next h
  rw [foldFrom, hstmts]
  rfl

/-- **Folding twice is folding once**, node by node and id by id: whatever supplies of ids the passes
draw from, the second one gives the folded program back and draws none. -/
theorem fold_fold (p : Program) :
    (∀ first second : NodeId,
      (p.foldFrom first).1.foldFrom second = ((p.foldFrom first).1, second)) ∧
    p.fold.fold = p.fold ∧ p.fold.foldCount = 0 := by
  have hagain : ∀ first second : NodeId,
      (p.foldFrom first).1.foldFrom second = ((p.foldFrom first).1, second) := fun first =>
    foldFrom_of_settled (Stmt.settledAll_foldAllFrom p.stmts first)
  have htwice : p.fold.foldFrom (freshId p.fold.nodeIds) = (p.fold, freshId p.fold.nodeIds) :=
    hagain _ _
  refine ⟨hagain, ?_, ?_⟩
  · rw [fold, htwice]
  · rw [foldCount, htwice, Nat.sub_self]

end Program

end Abacus
