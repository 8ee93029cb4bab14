import Abacus.Fold
import Mathlib.Data.List.Nodup

/-!
# Ids of folded trees

Folding draws a fresh id for every literal it makes and keeps the ids of all other nodes that stay. A
node of the folded tree therefore has an id of the tree or one that was drawn, and each of these at
most once (`Expr.count_foldFrom`). Since fresh ids are above all ids of the tree, a program with
different ids still has different ids when it is folded (`Program.nodup_fold`).
-/
namespace Abacus

/-! ## What becomes of an operator -/

/-- A finite value that is known becomes the literal of the next id, and otherwise nothing changes. -/
theorem literalOr_cases (next : NodeId) (value : Option Float) (kept : Expr) :
    (∀ v, value = some v → v.isFinite = false) ∧ literalOr next value kept = (kept, next) ∨
      ∃ v, value = some v ∧ v.isFinite = true ∧
        literalOr next value kept = (.number next v none, next + 1) := by
  unfold literalOr
  cases value with
  | none => exact .inl ⟨nofun, rfl⟩
  | some v =>
    dsimp only
    split
    next hfinite => exact .inr ⟨v, rfl, hfinite, rfl⟩
    next hinfinite =>
      refine .inl ⟨?_, rfl⟩
      rintro w ⟨⟩
      exact Bool.eq_false_iff.mpr hinfinite

theorem Operator.fold?_eq_some {op : Operator} {left right : Expr} {v : Float} :
    op.fold? left right = some v ↔
      ∃ x y, left.value? = some x ∧ right.value? = some y ∧ op.apply x y = v := by
  unfold Operator.fold?
  cases left.value? <;> cases right.value? <;> simp

/-- An operator is kept with its operands folded, or both of them are literals, the value is finite, and
its literal gets the next id. -/
theorem Expr.foldFrom_binary_cases (next id : NodeId) (op : Operator) (left right : Expr) :
    (∀ x y, (left.foldFrom next).1.value? = some x →
      (right.foldFrom (left.foldFrom next).2).1.value? = some y → (op.apply x y).isFinite = false) ∧
      (Expr.binary id op left right).foldFrom next =
        (.binary id op (left.foldFrom next).1 (right.foldFrom (left.foldFrom next).2).1,
          (right.foldFrom (left.foldFrom next).2).2) ∨
    ∃ x y, (left.foldFrom next).1.value? = some x ∧
      (right.foldFrom (left.foldFrom next).2).1.value? = some y ∧ (op.apply x y).isFinite = true ∧
      (Expr.binary id op left right).foldFrom next =
        (.number (right.foldFrom (left.foldFrom next).2).2 (op.apply x y) none,
          (right.foldFrom (left.foldFrom next).2).2 + 1) := by
  refine (literalOr_cases _ (op.fold? _ _) _).imp (fun ⟨hvalue, hkept⟩ => ⟨fun x y hx hy => ?_, hkept⟩)
    fun ⟨v, hv, hfinite, hliteral⟩ => ?_
  · exact hvalue _ (Operator.fold?_eq_some.mpr ⟨x, y, hx, hy, rfl⟩)
  · obtain ⟨x, y, hx, hy, rfl⟩ := Operator.fold?_eq_some.mp hv
    exact ⟨x, y, hx, hy, hfinite, hliteral⟩

theorem Expr.foldFrom_negate_cases (next id : NodeId) (operand : Expr) :
    (∀ x, (operand.foldFrom next).1.value? = some x → (-x).isFinite = false) ∧
      (Expr.negate id operand).foldFrom next =
        (.negate id (operand.foldFrom next).1, (operand.foldFrom next).2) ∨
    ∃ x, (operand.foldFrom next).1.value? = some x ∧ (-x).isFinite = true ∧
      (Expr.negate id operand).foldFrom next =
        (.number (operand.foldFrom next).2 (-x) none, (operand.foldFrom next).2 + 1) := by
  refine (literalOr_cases _ ((operand.foldFrom next).1.value?.map (- ·)) _).imp
    (fun ⟨hvalue, hkept⟩ => ⟨fun x hx => ?_, hkept⟩) fun ⟨v, hv, hfinite, hliteral⟩ => ?_
  · exact hvalue (-x) (by rw [hx, Option.map_some])
  · obtain ⟨x, hx, rfl⟩ := Option.map_eq_some_iff.mp hv
    exact ⟨x, hx, hfinite, hliteral⟩

/-! ## Ids that are kept and ids that are drawn -/

/-- How often an id is drawn between two states of the supply. -/
def drawn (next after id : Nat) : Nat :=
  if next ≤ id ∧ id < after then 1 else 0

theorem drawn_add {next middle after : Nat} (id : Nat) (h : next ≤ middle) (h' : middle ≤ after) :
    drawn next middle id + drawn middle after id = drawn next after id := by
  unfold drawn
  split <;> split <;> split <;> omega

theorem drawn_succ (next id : Nat) : drawn next (next + 1) id = if next = id then 1 else 0 := by
  unfold drawn
  split <;> split <;> omega

theorem drawn_le_one (next after id : Nat) : drawn next after id ≤ 1 := by
  unfold drawn
  split <;> omega

/-- What drawing does to the ids of a part of a tree, given those before and after it: no id is there
more often than before, but for those drawn, which may be there once more. -/
structure Draws (ids ids' : List NodeId) (next after : Nat) : Prop where
  le : next ≤ after
  count_le : ∀ id, ids'.count id ≤ ids.count id + drawn next after id

namespace Draws

variable {ids ids' ids'' more more' : List NodeId} {next middle after : Nat}

theorem of_le (h : next ≤ after) (hcount : ∀ id, ids'.count id ≤ ids.count id) :
    Draws ids ids' next after :=
  ⟨h, fun id => Nat.le_add_right_of_le (hcount id)⟩

theorem skipped (ids : List NodeId) (h : next ≤ after) : Draws ids ids next after :=
  of_le h fun _ => Nat.le_refl _

theorem refl (ids : List NodeId) (next : Nat) : Draws ids ids next next :=
  skipped ids (Nat.le_refl _)

theorem trans (h : Draws ids ids' next middle) (h' : Draws ids' ids'' middle after) :
    Draws ids ids'' next after := by
  refine ⟨Nat.le_trans h.le h'.le, fun id => ?_⟩
  have hcount := h.count_le id
  have hcount' := h'.count_le id
  have hdrawn := drawn_add id h.le h'.le
  omega

theorem append (h : Draws ids ids' next middle) (h' : Draws more more' middle after) :
    Draws (ids ++ more) (ids' ++ more') next after := by
  refine ⟨Nat.le_trans h.le h'.le, fun id => ?_⟩
  have hcount := h.count_le id
  have hcount' := h'.count_le id
  have hdrawn := drawn_add id h.le h'.le
  rw [List.count_append, List.count_append]
  omega

theorem cons (i : NodeId) (h : Draws ids ids' next after) : Draws (i :: ids) (i :: ids') next after := by
  refine ⟨h.le, fun id => ?_⟩
  have hcount := h.count_le id
  rw [List.count_cons, List.count_cons]
  omega

/-- The next id. -/
theorem fresh (ids : List NodeId) (next : Nat) : Draws ids (next :: ids) next (next + 1) := by
  refine ⟨Nat.le_succ next, fun id => ?_⟩
  rw [drawn_succ, List.count_cons]
  simp only [beq_iff_eq, Nat.le_refl]

/-- A literal in place of a part of the tree. -/
theorem literal (i : NodeId) (h : Draws ids ids' next after) :
    Draws (i :: ids) [after] next (after + 1) := by
  have hdropped : Draws (i :: ids) [] next after := of_le h.le fun _ => Nat.zero_le _
  exact hdropped.trans (fresh [] after)

theorem range (next count : Nat) : Draws [] (List.range' next count) next (next + count) := by
  induction count generalizing next with
  | zero => exact refl [] next
  | succ count ih =>
    rw [List.range'_succ, Nat.add_comm count 1, ← Nat.add_assoc]
    exact (fresh [] next).append (ih (next + 1))

/-- Ids out of the supply alone are different. -/
theorem nodup (h : Draws [] ids next after) : ids.Nodup := by
  refine List.nodup_iff_count_le_one.mpr fun id => ?_
  have hcount := h.count_le id
  have hone := drawn_le_one next after id
  rw [List.count_nil] at hcount
  omega

theorem lt (h : Draws [] ids next after) {id : Nat} (hid : id ∈ ids) : id < after := by
  have hcount := h.count_le id
  have hpos : 0 < ids.count id := List.count_pos_iff.mpr hid
  rw [List.count_nil] at hcount
  unfold drawn at hcount
  split at hcount
  next hdrawn => exact hdrawn.2
  next => omega

end Draws

mutual

theorem Expr.count_foldFrom : ∀ (next : NodeId) (e : Expr),
    Draws e.nodeIds (e.foldFrom next).1.nodeIds next (e.foldFrom next).2
  | next, .number id _ _ => .refl _ next
  | next, .var id _ => .refl _ next
  | next, .binary id op left right => by
    have hleft := Expr.count_foldFrom next left
    have hright := Expr.count_foldFrom (left.foldFrom next).2 right
    have hboth := hleft.append hright
    rcases Expr.foldFrom_binary_cases next id op left right with
      ⟨-, hkept⟩ | ⟨x, y, -, -, -, hliteral⟩
    · rw [hkept]
      exact hboth.cons id
    · rw [hliteral]
      exact hboth.literal id
  | next, .negate id operand => by
    have hoperand := Expr.count_foldFrom next operand
    rcases Expr.foldFrom_negate_cases next id operand with ⟨-, hkept⟩ | ⟨x, -, -, hliteral⟩
    · rw [hkept]
      exact hoperand.cons id
    · rw [hliteral]
      exact hoperand.literal id
  | next, .call id _ args => (Expr.count_foldAllFrom next args).cons id

theorem Expr.count_foldAllFrom : ∀ (next : NodeId) (es : List Expr),
    Draws (Expr.nodeIdsAll es) (Expr.nodeIdsAll (Expr.foldAllFrom next es).1) next
      (Expr.foldAllFrom next es).2
  | next, [] => .refl [] next
  | next, e :: rest =>
    (Expr.count_foldFrom next e).append (Expr.count_foldAllFrom (e.foldFrom next).2 rest)

end

mutual

theorem Stmt.count_foldFrom : ∀ (next : NodeId) (s : Stmt),
    Draws s.nodeIds (s.foldFrom next).1.nodeIds next (s.foldFrom next).2
  | next, .define id _ params bodyId body =>
    ((Draws.refl params.nodeIds next).append
      ((Stmt.count_foldAllFrom next body).cons bodyId)).cons id
  | next, .assign id _ value => (value.count_foldFrom next).cons id
  | next, .expr e => e.count_foldFrom next

theorem Stmt.count_foldAllFrom : ∀ (next : NodeId) (ss : List Stmt),
    Draws (Stmt.nodeIdsAll ss) (Stmt.nodeIdsAll (Stmt.foldAllFrom next ss).1) next
      (Stmt.foldAllFrom next ss).2
  | next, [] => .refl [] next
  | next, s :: rest =>
    (Stmt.count_foldFrom next s).append (Stmt.count_foldAllFrom (s.foldFrom next).2 rest)

end

theorem lt_freshId {ids : List NodeId} {id : NodeId} (h : id ∈ ids) : id < freshId ids := by
  induction ids with
  | nil => cases h
  | cons i rest ih =>
    rw [freshId, List.foldr_cons]
    rcases List.mem_cons.mp h with rfl | hmem
    · exact Nat.lt_of_lt_of_le (Nat.lt_succ_self _) (Nat.le_max_left _ _)
    · exact Nat.lt_of_lt_of_le (ih hmem) (Nat.le_max_right _ _)

/-- Folding keeps different ids different. -/
theorem Program.nodup_fold {p : Program} (h : p.nodeIds.Nodup) : p.fold.nodeIds.Nodup := by
  have hdraws : Draws p.nodeIds p.fold.nodeIds (freshId p.nodeIds) _ :=
    ((Stmt.count_foldAllFrom (freshId p.nodeIds) p.stmts).cons p.body.id).cons p.id
  refine List.nodup_iff_count_le_one.mpr fun id => ?_
  have hcount := hdraws.count_le id
  have honce := List.nodup_iff_count_le_one.mp h id
  by_cases hmem : id ∈ p.nodeIds
  · have hnone : drawn (freshId p.nodeIds) (Stmt.foldAllFrom (freshId p.nodeIds) p.stmts).2 id = 0 :=
      if_neg fun hdrawn => absurd (lt_freshId hmem) (Nat.not_lt.mpr hdrawn.1)
    omega
  · have hzero : p.nodeIds.count id = 0 := List.count_eq_zero.mpr hmem
    have hone := drawn_le_one (freshId p.nodeIds) (Stmt.foldAllFrom (freshId p.nodeIds) p.stmts).2 id
    omega

end Abacus
