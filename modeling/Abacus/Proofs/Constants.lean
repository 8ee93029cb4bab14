import Abacus.Proofs.Folding
import Abacus.Proofs.Fresh
import Abacus.Proofs.Positions

/-!
# What folds

An expression is foldable if it has no variable and no call and the machine comes to a finite value for
each of its operators. Folding an expression leaves a literal exactly if the expression is foldable
(`Expr.exists_value_iff`).

In a program each foldable operator that is part of no larger one becomes a literal with a fresh id, and
the rest stays in place as it was. On the way from the root to a position this needs one step only: a
node that does not fold keeps its label, and its children are folded one after the other (`Node.Keeps`).
So what stands at a position above which nothing folds is the folded node of that position
(`Node.at?_foldFrom`). The main statement is `fold_exact`.
-/
namespace Abacus

/-! ## Foldable expressions -/

/-- On its own, without variables, the expression has a finite value. -/
def Expr.HasFiniteValue (e : Expr) : Prop :=
  ∃ v : Float, v.isFinite = true ∧ e.compile.run {} none = pure v

/-- An expression without variables and calls, in which every operator has a finite value. -/
def Expr.Foldable : Expr → Prop
  | .number _ _ _ => True
  | .var _ _ => False
  | .binary id op left right =>
    left.Foldable ∧ right.Foldable ∧ (Expr.binary id op left right).HasFiniteValue
  | .negate id operand => operand.Foldable ∧ (Expr.negate id operand).HasFiniteValue
  | .call _ _ _ => False

/-- What folds to a literal runs to its value, whatever the variables and the limit are. -/
theorem Expr.run_of_value {e : Expr} {next : NodeId} {v : Float}
    (h : (e.foldFrom next).1.value? = some v) (locals : Locals) (limit : Option Nat) :
    e.compile.run locals limit = pure v := by
  have hreduces := Expr.compile_reduces next e
  rw [Expr.compile_of_value h] at hreduces
  exact (hreduces.run_eq locals limit).symm

theorem Builtin.eq_apply_of_call {op : Operator} {x y v : Float}
    (h : (Builtin.ofOperator op).call [x, y] = pure v) : op.apply x y = v := by
  have hresult := congrArg Traced.result h
  cases op with
  | divide =>
    unfold Builtin.ofOperator Builtin.call at hresult
    dsimp only at hresult
    split at hresult
    · cases hresult
    · exact Except.ok.inj hresult
  | _ => exact Except.ok.inj hresult

/-- An operator between operands that fold does to their values what its built-in function does. -/
theorem Expr.run_binary {left right : Expr} {next next' : NodeId} {x y : Float}
    (hx : (left.foldFrom next).1.value? = some x) (hy : (right.foldFrom next').1.value? = some y)
    (id : NodeId) (op : Operator) :
    (Expr.binary id op left right).compile.run {} none = (Builtin.ofOperator op).call [x, y] := by
  have hleft := Expr.compile_reduces next left
  have hright := Expr.compile_reduces next' right
  rw [Expr.compile_of_value hx] at hleft
  rw [Expr.compile_of_value hy] at hright
  have hrun := ((hright.append hleft).append (.refl [.op (.arithmetic op)])).run_eq {} none
  rw [Expr.compile, ← hrun]
  simp only [Code.run, Code.runIn_eq, Code.runWith, List.cons_append, List.nil_append, State.steps,
    State.step, State.push, State.operate, Stack.pop_number, Traced.ok_bind, pure_bind, bind_assoc,
    Stack.result]
  exact bind_pure _

theorem Expr.run_negate {operand : Expr} {next : NodeId} {x : Float}
    (hx : (operand.foldFrom next).1.value? = some x) (id : NodeId) :
    (Expr.negate id operand).compile.run {} none = pure (-x) := by
  have hoperand := Expr.compile_reduces next operand
  rw [Expr.compile_of_value hx] at hoperand
  exact ((hoperand.append (.refl [.op .negate])).run_eq {} none).symm

/-! ## Folding finds the foldable expressions -/

theorem Expr.foldable_of_value : ∀ (e : Expr) (next : NodeId) (v : Float),
    (e.foldFrom next).1.value? = some v → e.Foldable
  | .number _ _ _, _, _, _ => trivial
  | .var _ _, _, _, h => by cases h
  | .binary id op left right, next, v, h => by
    have hrun := Expr.run_of_value h {} none
    rcases Expr.foldFrom_binary_cases next id op left right with
      ⟨-, hkept⟩ | ⟨x, y, hx, hy, hfinite, hliteral⟩
    · rw [hkept] at h
      cases h
    · rw [hliteral] at h
      obtain rfl := Option.some.inj h
      exact ⟨left.foldable_of_value _ x hx, right.foldable_of_value _ y hy, _, hfinite, hrun⟩
  | .negate id operand, next, v, h => by
    have hrun := Expr.run_of_value h {} none
    rcases Expr.foldFrom_negate_cases next id operand with
      ⟨-, hkept⟩ | ⟨x, hx, hfinite, hliteral⟩
    · rw [hkept] at h
      cases h
    · rw [hliteral] at h
      obtain rfl := Option.some.inj h
      exact ⟨operand.foldable_of_value _ x hx, _, hfinite, hrun⟩
  | .call _ _ _, _, _, h => by cases h

theorem Expr.value_of_foldable : ∀ (e : Expr), e.Foldable → ∀ next : NodeId,
    ∃ v, (e.foldFrom next).1.value? = some v
  | .number _ value _, _, _ => ⟨value, rfl⟩
  | .binary id op left right, ⟨hleft, hright, v, hfinite, hrun⟩, next => by
    obtain ⟨x, hx⟩ := left.value_of_foldable hleft next
    obtain ⟨y, hy⟩ := right.value_of_foldable hright (left.foldFrom next).2
    rw [Expr.run_binary hx hy id op] at hrun
    obtain rfl := Builtin.eq_apply_of_call hrun
    rcases Expr.foldFrom_binary_cases next id op left right with
      ⟨hnone, -⟩ | ⟨_, _, -, -, -, hliteral⟩
    · exact absurd hfinite (Bool.eq_false_iff.mp (hnone x y hx hy))
    · exact ⟨_, congrArg (Expr.value? ∘ Prod.fst) hliteral⟩
  | .negate id operand, ⟨hoperand, v, hfinite, hrun⟩, next => by
    obtain ⟨x, hx⟩ := operand.value_of_foldable hoperand next
    rw [Expr.run_negate hx id] at hrun
    obtain rfl : -x = v := Except.ok.inj (congrArg Traced.result hrun)
    rcases Expr.foldFrom_negate_cases next id operand with ⟨hnone, -⟩ | ⟨_, -, -, hliteral⟩
    · exact absurd hfinite (Bool.eq_false_iff.mp (hnone x hx))
    · exact ⟨_, congrArg (Expr.value? ∘ Prod.fst) hliteral⟩

theorem Expr.exists_value_iff (e : Expr) (next : NodeId) :
    (∃ v, (e.foldFrom next).1.value? = some v) ↔ e.Foldable :=
  ⟨fun ⟨v, h⟩ => e.foldable_of_value next v h, fun h => e.value_of_foldable h next⟩

/-! ## Folding a node -/

def Expr.IsOperator : Expr → Prop
  | .binary _ _ _ _ => True
  | .negate _ _ => True
  | _ => False

namespace Node

/-- A node that a literal can stand for. -/
def Folds : Node → Prop
  | expr e => e.IsOperator ∧ e.Foldable
  | _ => False

def foldFrom (next : NodeId) : Node → Node × NodeId
  | program p => (program (p.foldFrom next).1, (p.foldFrom next).2)
  | block b =>
    (block { b with stmts := (Stmt.foldAllFrom next b.stmts).1 }, (Stmt.foldAllFrom next b.stmts).2)
  | define d =>
    (define { d with body := { d.body with stmts := (Stmt.foldAllFrom next d.body.stmts).1 } },
      (Stmt.foldAllFrom next d.body.stmts).2)
  | assign id name value => (assign id name (value.foldFrom next).1, (value.foldFrom next).2)
  | params ps => (params ps, next)
  | param p => (param p, next)
  | expr e => (expr (e.foldFrom next).1, (e.foldFrom next).2)

/-- Folds nodes one after the other. -/
def foldAllFrom (next : NodeId) : List Node → List Node × NodeId
  | [] => ([], next)
  | n :: rest =>
    ((n.foldFrom next).1 :: (foldAllFrom (n.foldFrom next).2 rest).1,
      (foldAllFrom (n.foldFrom next).2 rest).2)

end Node

namespace Node

theorem foldAllFrom_exprs (es : List Expr) (next : NodeId) :
    foldAllFrom next (es.map expr) =
      ((Expr.foldAllFrom next es).1.map expr, (Expr.foldAllFrom next es).2) := by
  induction es generalizing next with
  | nil => rfl
  | cons e rest ih => simp only [List.map_cons, foldAllFrom, foldFrom, ih, Expr.foldAllFrom]

theorem foldFrom_node (s : Stmt) (next : NodeId) :
    s.node.foldFrom next = ((s.foldFrom next).1.node, (s.foldFrom next).2) := by
  cases s <;> rfl

theorem foldAllFrom_stmts (ss : List Stmt) (next : NodeId) :
    foldAllFrom next (ss.map Stmt.node) =
      ((Stmt.foldAllFrom next ss).1.map Stmt.node, (Stmt.foldAllFrom next ss).2) := by
  induction ss generalizing next with
  | nil => rfl
  | cons s rest ih => simp only [List.map_cons, foldAllFrom, foldFrom_node, ih, Stmt.foldAllFrom]

theorem foldAllFrom_params (ps : List Param) (next : NodeId) :
    foldAllFrom next (ps.map param) = (ps.map param, next) := by
  induction ps with
  | nil => rfl
  | cons p rest ih => simp only [List.map_cons, foldAllFrom, foldFrom, ih]

/-- The node keeps its label and has its children folded. -/
structure Keeps (next : NodeId) (n : Node) : Prop where
  label : (n.foldFrom next).1.label = n.label
  children : (n.foldFrom next).1.children = (foldAllFrom next n.children).1
  supply : (n.foldFrom next).2 = (foldAllFrom next n.children).2

/-- An operator becomes a literal with the last id drawn, or it is kept. -/
theorem literal_or_keeps {e : Expr} (h : e.IsOperator) (next : NodeId) :
    (∃ id v, e.foldFrom next = (.number id v none, id + 1) ∧ next ≤ id) ∨
      (e.foldFrom next).1.value? = none ∧ (expr e).Keeps next := by
  cases e with
  | binary id op left right =>
    have hleft := (Expr.count_foldFrom next left).le
    have hright := (Expr.count_foldFrom (left.foldFrom next).2 right).le
    rcases Expr.foldFrom_binary_cases next id op left right with
      ⟨-, hkept⟩ | ⟨_, _, -, -, -, hliteral⟩
    · refine .inr ⟨by rw [hkept]; rfl, ?_⟩
      constructor
      all_goals
        simp only [foldFrom, hkept]
        rfl
    · exact .inl ⟨_, _, hliteral, Nat.le_trans hleft hright⟩
  | negate id operand =>
    rcases Expr.foldFrom_negate_cases next id operand with ⟨-, hkept⟩ | ⟨_, -, -, hliteral⟩
    · refine .inr ⟨by rw [hkept]; rfl, ?_⟩
      constructor
      all_goals
        simp only [foldFrom, hkept]
        rfl
    · exact .inl ⟨_, _, hliteral, (Expr.count_foldFrom next operand).le⟩
  | number _ _ _ => exact h.elim
  | var _ _ => exact h.elim
  | call _ _ _ => exact h.elim

/-- A foldable operator becomes a literal of the value that it runs to. -/
theorem literal_of_folds {e : Expr} (h : (expr e).Folds) (next : NodeId) :
    ∃ id v, e.foldFrom next = (.number id v none, id + 1) ∧ next ≤ id ∧
      ∀ locals limit, e.compile.run locals limit = pure v := by
  obtain ⟨hoperator, hfoldable⟩ := h
  obtain ⟨v, hv⟩ := e.value_of_foldable hfoldable next
  rcases literal_or_keeps hoperator next with ⟨id, w, hliteral, hle⟩ | ⟨hnone, -⟩
  · have hw : (e.foldFrom next).1.value? = some w := by rw [hliteral]; rfl
    exact ⟨id, w, hliteral, hle, Expr.run_of_value hw⟩
  · rw [hnone] at hv
    cases hv

theorem keeps_expr {e : Expr} (h : ¬(expr e).Folds) (next : NodeId) : (expr e).Keeps next := by
  by_cases hoperator : e.IsOperator
  · rcases literal_or_keeps hoperator next with ⟨id, v, hliteral, -⟩ | ⟨-, hkeeps⟩
    · have hv : (e.foldFrom next).1.value? = some v := by rw [hliteral]; rfl
      exact absurd ⟨hoperator, e.foldable_of_value next v hv⟩ h
    · exact hkeeps
  · cases e with
    | number _ _ _ => exact ⟨rfl, rfl, rfl⟩
    | var _ _ => exact ⟨rfl, rfl, rfl⟩
    | binary _ _ _ _ => exact absurd trivial hoperator
    | negate _ _ => exact absurd trivial hoperator
    | call id name args =>
      have hargs := foldAllFrom_exprs args next
      exact ⟨rfl, (congrArg Prod.fst hargs).symm, (congrArg Prod.snd hargs).symm⟩

theorem keeps {n : Node} (h : ¬n.Folds) (next : NodeId) : n.Keeps next := by
  cases n with
  | expr e => exact keeps_expr h next
  | block b =>
    have hstmts := foldAllFrom_stmts b.stmts next
    exact ⟨rfl, (congrArg Prod.fst hstmts).symm, (congrArg Prod.snd hstmts).symm⟩
  | params ps =>
    have hparams := foldAllFrom_params ps.params next
    exact ⟨rfl, (congrArg Prod.fst hparams).symm, (congrArg Prod.snd hparams).symm⟩
  | _ => exact ⟨rfl, rfl, rfl⟩

/-! ## The supply of ids -/

theorem le_foldFrom (n : Node) (next : NodeId) : next ≤ (n.foldFrom next).2 := by
  cases n with
  | program p => exact (Stmt.count_foldAllFrom next p.stmts).le
  | block b => exact (Stmt.count_foldAllFrom next b.stmts).le
  | define d => exact (Stmt.count_foldAllFrom next d.body.stmts).le
  | assign _ _ value => exact (Expr.count_foldFrom next value).le
  | params _ => exact Nat.le_refl next
  | param _ => exact Nat.le_refl next
  | expr e => exact (Expr.count_foldFrom next e).le

/-- The supply that is left when the first nodes of a list have been folded. -/
def supply (next : NodeId) (ns : List Node) (i : Nat) : NodeId :=
  (foldAllFrom next (ns.take i)).2

theorem supply_succ {ns : List Node} {i : Nat} {c : Node} (h : ns[i]? = some c) (next : NodeId) :
    supply next ns (i + 1) = (c.foldFrom (supply next ns i)).2 := by
  induction ns generalizing next i with
  | nil => cases h
  | cons n rest ih =>
    cases i with
    | zero =>
      obtain rfl := Option.some.inj h
      rfl
    | succ i => exact ih h _

theorem supply_le_succ (next : NodeId) (ns : List Node) (i : Nat) :
    supply next ns i ≤ supply next ns (i + 1) := by
  cases h : ns[i]? with
  | none =>
    have hle := List.getElem?_eq_none_iff.mp h
    rw [supply, supply, List.take_of_length_le hle, List.take_of_length_le (Nat.le_succ_of_le hle)]
  | some c =>
    rw [supply_succ h]
    exact c.le_foldFrom _

theorem supply_mono (next : NodeId) (ns : List Node) {i j : Nat} (h : i ≤ j) :
    supply next ns i ≤ supply next ns j :=
  monotone_nat_of_le_succ (supply_le_succ next ns) h

theorem supply_le (next : NodeId) (ns : List Node) (i : Nat) :
    supply next ns i ≤ (foldAllFrom next ns).2 := by
  have hall : supply next ns (max i ns.length) = (foldAllFrom next ns).2 := by
    rw [supply, List.take_of_length_le (Nat.le_max_right _ _)]
  rw [← hall]
  exact supply_mono next ns (Nat.le_max_left _ _)

theorem getElem?_foldAllFrom (ns : List Node) (next : NodeId) (i : Nat) :
    (foldAllFrom next ns).1[i]? = ns[i]?.map fun c => (c.foldFrom (supply next ns i)).1 := by
  induction ns generalizing next i with
  | nil => rfl
  | cons n rest ih =>
    cases i with
    | zero => rfl
    | succ i => exact ih _ i

theorem length_foldAllFrom (ns : List Node) (next : NodeId) :
    (foldAllFrom next ns).1.length = ns.length := by
  induction ns generalizing next with
  | nil => rfl
  | cons n rest ih => rw [foldAllFrom, List.length_cons, List.length_cons, ih]

/-! ## Positions that are still there -/

/-- Nothing above the position folds. -/
def Exposed (n : Node) (path : List Nat) : Prop :=
  ∀ above, above <+: path → above ≠ path → ∀ m, n.at? above = some m → ¬m.Folds

/-- At the position stands a node that folds and is part of no larger one that does. -/
def FoldsAt (n : Node) (path : List Nat) : Prop :=
  n.Exposed path ∧ ∃ m, n.at? path = some m ∧ m.Folds

theorem exposed_nil (n : Node) : n.Exposed [] := by
  intro above habove hne
  exact absurd (List.prefix_nil.mp habove) hne

theorem exposed_cons {n c : Node} {i : Nat} (hc : n.children[i]? = some c) (path : List Nat) :
    n.Exposed (i :: path) ↔ ¬n.Folds ∧ c.Exposed path := by
  constructor
  · intro h
    refine ⟨h [] List.nil_prefix (List.cons_ne_nil i path).symm n rfl, fun above habove hne m hm => ?_⟩
    refine h (i :: above) ((List.prefix_cons_inj i).mpr habove) ?_ m ?_
    · exact fun heq => hne (List.cons.inj heq).2
    · rwa [at?_cons_of_child hc]
  · rintro ⟨hn, h⟩ above habove hne m hm
    rcases List.prefix_cons_iff.mp habove with rfl | ⟨below, rfl, hbelow⟩
    · obtain rfl := Option.some.inj hm
      exact hn
    · rw [at?_cons_of_child hc] at hm
      exact h below hbelow (fun heq => hne (congrArg (i :: ·) heq)) m hm

/-- What stands at an exposed position is folded in place. -/
theorem at?_foldFrom {n m : Node} {path : List Nat} (h : n.Exposed path) (hm : n.at? path = some m)
    (next : NodeId) : ∃ first, (n.foldFrom next).1.at? path = some (m.foldFrom first).1 ∧
      next ≤ first ∧ (m.foldFrom first).2 ≤ (n.foldFrom next).2 := by
  induction path generalizing n next with
  | nil =>
    obtain rfl := Option.some.inj hm
    exact ⟨next, rfl, Nat.le_refl _, Nat.le_refl _⟩
  | cons i path ih =>
    obtain ⟨c, hc, hm⟩ := at?_cons.mp hm
    obtain ⟨hn, hexposed⟩ := (exposed_cons hc path).mp h
    obtain ⟨-, hchildren, hsupply⟩ := keeps hn next
    obtain ⟨first, hat, hle, hafter⟩ := ih hexposed hm (supply next n.children i)
    have hchild : (n.foldFrom next).1.children[i]? =
        some (c.foldFrom (supply next n.children i)).1 := by
      rw [hchildren, getElem?_foldAllFrom, hc, Option.map_some]
    refine ⟨first, ?_, ?_, ?_⟩
    · rw [at?_cons_of_child hchild]
      exact hat
    · exact Nat.le_trans (supply_mono next n.children (Nat.zero_le i)) hle
    · rw [hsupply]
      refine Nat.le_trans hafter ?_
      rw [← supply_succ hc]
      exact supply_le next n.children (i + 1)

/-- There is nothing in a folded tree but what stands at an exposed position of the tree. -/
theorem exposed_of_at?_foldFrom {n m' : Node} {path : List Nat} {next : NodeId}
    (h : (n.foldFrom next).1.at? path = some m') : n.Exposed path ∧ ∃ m, n.at? path = some m := by
  induction path generalizing n next with
  | nil => exact ⟨n.exposed_nil, n, rfl⟩
  | cons i path ih =>
    obtain ⟨c', hc', hm'⟩ := at?_cons.mp h
    by_cases hn : n.Folds
    · -- a literal has no children
      cases n with
      | expr e =>
        obtain ⟨id, v, hliteral, -⟩ := literal_of_folds hn next
        rw [foldFrom, hliteral] at hc'
        cases hc'
      | _ => exact hn.elim
    · rw [(keeps hn next).children, getElem?_foldAllFrom] at hc'
      obtain ⟨c, hc, rfl⟩ := Option.map_eq_some_iff.mp hc'
      obtain ⟨hexposed, m, hm⟩ := ih hm'
      exact ⟨(exposed_cons hc path).mpr ⟨hn, hexposed⟩, m, at?_cons.mpr ⟨c, hc, hm⟩⟩

/-- Where a node folds and is part of no larger one that does, there is a literal of its value, with an
id that was drawn. -/
theorem literal_of_foldsAt {n : Node} {path : List Nat} (h : n.FoldsAt path) (next : NodeId) :
    ∃ e id v, n.at? path = some (expr e) ∧
      (n.foldFrom next).1.at? path = some (expr (.number id v none)) ∧
      (next ≤ id ∧ id < (n.foldFrom next).2) ∧ ∀ locals limit, e.compile.run locals limit = pure v := by
  obtain ⟨hexposed, m, hm, hfolds⟩ := h
  obtain ⟨first, hat, hle, hafter⟩ := at?_foldFrom hexposed hm next
  cases m with
  | expr e =>
    obtain ⟨id, v, hliteral, hid, hrun⟩ := literal_of_folds hfolds first
    rw [foldFrom, hliteral] at hat hafter
    exact ⟨e, id, v, hm, hat, ⟨Nat.le_trans hle hid, hafter⟩, hrun⟩
  | _ => exact hfolds.elim

theorem FoldsAt.child {n : Node} {i : Nat} {path : List Nat} (h : n.FoldsAt (i :: path)) :
    ¬n.Folds ∧ ∃ c, n.children[i]? = some c ∧ c.FoldsAt path := by
  obtain ⟨hexposed, m, hm, hfolds⟩ := h
  obtain ⟨c, hc, hm⟩ := at?_cons.mp hm
  obtain ⟨hn, hexposed⟩ := (exposed_cons hc path).mp hexposed
  exact ⟨hn, c, hc, hexposed, m, hm, hfolds⟩

theorem FoldsAt.root {n : Node} (h : n.FoldsAt []) : n.Folds := by
  obtain ⟨-, m, hm, hfolds⟩ := h
  obtain rfl := Option.some.inj hm
  exact hfolds

/-- The id of the literal at a position of a folded tree. -/
def LiteralAt (n : Node) (path : List Nat) (id : NodeId) : Prop :=
  ∃ v source, n.at? path = some (expr (.number id v source))

/-- The literal in a child has an id that was drawn for this child. -/
theorem FoldsAt.drawn {n c : Node} {i : Nat} {path : List Nat} {next id : NodeId} (hn : ¬n.Folds)
    (hc : n.children[i]? = some c) (h : c.FoldsAt path)
    (hid : (n.foldFrom next).1.LiteralAt (i :: path) id) :
    (c.foldFrom (supply next n.children i)).1.LiteralAt path id ∧
      supply next n.children i ≤ id ∧ id < supply next n.children (i + 1) := by
  have hchild : (n.foldFrom next).1.children[i]? =
      some (c.foldFrom (supply next n.children i)).1 := by
    rw [(keeps hn next).children, getElem?_foldAllFrom, hc, Option.map_some]
  obtain ⟨v, source, hat⟩ := hid
  rw [at?_cons_of_child hchild] at hat
  obtain ⟨_, id', v', -, hat', hbounds, -⟩ := literal_of_foldsAt h (supply next n.children i)
  obtain rfl : id' = id := by
    have hsame := Option.some.inj (hat'.symm.trans hat)
    simp only [Node.expr.injEq, Expr.number.injEq] at hsame
    exact hsame.1
  rw [supply_succ hc]
  exact ⟨⟨v, source, hat⟩, hbounds⟩

/-- Different literals that were made have different ids. -/
theorem FoldsAt.eq_of_id {n : Node} {path path' : List Nat} {next id : NodeId} (h : n.FoldsAt path)
    (h' : n.FoldsAt path') (hid : (n.foldFrom next).1.LiteralAt path id)
    (hid' : (n.foldFrom next).1.LiteralAt path' id) : path = path' := by
  induction path generalizing n next path' with
  | nil =>
    cases path' with
    | nil => rfl
    | cons j path' => exact absurd h.root h'.child.1
  | cons i path ih =>
    cases path' with
    | nil => exact absurd h'.root h.child.1
    | cons j path' =>
      obtain ⟨hn, c, hc, h⟩ := h.child
      obtain ⟨-, c', hc', h'⟩ := h'.child
      obtain ⟨hid, hlow, hhigh⟩ := h.drawn hn hc hid
      obtain ⟨hid', hlow', hhigh'⟩ := h'.drawn hn hc' hid'
      rcases Nat.lt_trichotomy i j with hlt | rfl | hlt
      · have hmono := supply_mono next n.children (Nat.succ_le_of_lt hlt)
        exact absurd (Nat.lt_of_lt_of_le hhigh hmono) (Nat.not_lt.mpr hlow')
      · obtain rfl := Option.some.inj (hc.symm.trans hc')
        rw [ih h h' hid hid']
      · have hmono := supply_mono next n.children (Nat.succ_le_of_lt hlt)
        exact absurd (Nat.lt_of_lt_of_le hhigh' hmono) (Nat.not_lt.mpr hlow)

end Node

/-! ## Operators -/

mutual

/-- How many operators and negations there are in an expression. -/
def Expr.operators : Expr → Nat
  | .number _ _ _ => 0
  | .var _ _ => 0
  | .binary _ _ left right => left.operators + right.operators + 1
  | .negate _ operand => operand.operators + 1
  | .call _ _ args => Expr.operatorsAll args

def Expr.operatorsAll : List Expr → Nat
  | [] => 0
  | e :: rest => e.operators + Expr.operatorsAll rest

end

mutual

def Stmt.operators : Stmt → Nat
  | .define _ _ _ _ body => Stmt.operatorsAll body
  | .assign _ _ value => value.operators
  | .expr e => e.operators

def Stmt.operatorsAll : List Stmt → Nat
  | [] => 0
  | s :: rest => s.operators + Stmt.operatorsAll rest

end

def Program.operators (p : Program) : Nat :=
  Stmt.operatorsAll p.stmts

theorem Expr.operators_of_value {e : Expr} {v : Float} (h : e.value? = some v) : e.operators = 0 := by
  cases e <;> cases h
  rfl

mutual

/-- For every operator that goes an id is drawn. -/
theorem Expr.operators_foldFrom : ∀ (next : NodeId) (e : Expr),
    (e.foldFrom next).1.operators + (e.foldFrom next).2 = e.operators + next
  | _, .number _ _ _ => rfl
  | _, .var _ _ => rfl
  | next, .binary id op left right => by
    have hleft := Expr.operators_foldFrom next left
    have hright := Expr.operators_foldFrom (left.foldFrom next).2 right
    rcases Expr.foldFrom_binary_cases next id op left right with
      ⟨-, hkept⟩ | ⟨x, y, hx, hy, -, hliteral⟩
    · simp only [hkept, Expr.operators]
      omega
    · rw [Expr.operators_of_value hx] at hleft
      rw [Expr.operators_of_value hy] at hright
      simp only [hliteral, Expr.operators]
      omega
  | next, .negate id operand => by
    have hoperand := Expr.operators_foldFrom next operand
    rcases Expr.foldFrom_negate_cases next id operand with ⟨-, hkept⟩ | ⟨x, hx, -, hliteral⟩
    · simp only [hkept, Expr.operators]
      omega
    · rw [Expr.operators_of_value hx] at hoperand
      simp only [hliteral, Expr.operators]
      omega
  | next, .call _ _ args => Expr.operatorsAll_foldAllFrom next args

theorem Expr.operatorsAll_foldAllFrom : ∀ (next : NodeId) (es : List Expr),
    Expr.operatorsAll (Expr.foldAllFrom next es).1 + (Expr.foldAllFrom next es).2 =
      Expr.operatorsAll es + next
  | _, [] => rfl
  | next, e :: rest => by
    have he := Expr.operators_foldFrom next e
    have hrest := Expr.operatorsAll_foldAllFrom (e.foldFrom next).2 rest
    simp only [Expr.foldAllFrom, Expr.operatorsAll]
    omega

end

mutual

theorem Stmt.operators_foldFrom : ∀ (next : NodeId) (s : Stmt),
    (s.foldFrom next).1.operators + (s.foldFrom next).2 = s.operators + next
  | next, .define _ _ _ _ body => Stmt.operatorsAll_foldAllFrom next body
  | next, .assign _ _ value => value.operators_foldFrom next
  | next, .expr e => e.operators_foldFrom next

theorem Stmt.operatorsAll_foldAllFrom : ∀ (next : NodeId) (ss : List Stmt),
    Stmt.operatorsAll (Stmt.foldAllFrom next ss).1 + (Stmt.foldAllFrom next ss).2 =
      Stmt.operatorsAll ss + next
  | _, [] => rfl
  | next, s :: rest => by
    have hs := Stmt.operators_foldFrom next s
    have hrest := Stmt.operatorsAll_foldAllFrom (s.foldFrom next).2 rest
    simp only [Stmt.foldAllFrom, Stmt.operatorsAll]
    omega

end

namespace Program

/-- The nodes that fold are counted by the operators that are gone. -/
theorem operators_fold (p : Program) : p.fold.operators + p.foldCount = p.operators := by
  have hcount : p.fold.operators + (p.foldFrom (freshId p.nodeIds)).2 =
      p.operators + freshId p.nodeIds := Stmt.operatorsAll_foldAllFrom (freshId p.nodeIds) p.stmts
  have hle : freshId p.nodeIds ≤ (p.foldFrom (freshId p.nodeIds)).2 :=
    (Stmt.count_foldAllFrom (freshId p.nodeIds) p.stmts).le
  rw [foldCount, ← Nat.add_sub_assoc hle, hcount, Nat.add_sub_cancel]

/-! ## Folded programs -/

/-- What a folded program is, position by position. -/
structure FoldsTo (p q : Program) : Prop where
  /-- A literal with a fresh id and no text stands where the largest foldable operators were, and
  nowhere else. -/
  literal_iff : ∀ path, (∃ id v, id ∉ p.nodeIds ∧
    (Node.program q).at? path = some (.expr (.number id v none))) ↔ (Node.program p).FoldsAt path
  /-- Its value is the one that the machine computes for the operator. -/
  value : ∀ path e id v source, (Node.program p).FoldsAt path →
    (Node.program p).at? path = some (.expr e) →
    (Node.program q).at? path = some (.expr (.number id v source)) →
    ∀ locals limit, e.compile.run locals limit = pure v
  /-- No two of these literals have the same id. -/
  distinct : ∀ path path' id, (Node.program p).FoldsAt path → (Node.program p).FoldsAt path' →
    (Node.program q).LiteralAt path id → (Node.program q).LiteralAt path' id → path = path'
  /-- Every node that does not fold and is part of none that does is still there, with all that it is
  but its children, and has as many of these. -/
  kept : ∀ path m, (Node.program p).Exposed path → (Node.program p).at? path = some m → ¬m.Folds →
    ∃ m', (Node.program q).at? path = some m' ∧ m'.label = m.label ∧
      m'.children.length = m.children.length
  /-- There are no other nodes. -/
  exposed : ∀ path m', (Node.program q).at? path = some m' →
    (Node.program p).Exposed path ∧ ∃ m, (Node.program p).at? path = some m

theorem foldsTo_fold (p : Program) : p.FoldsTo p.fold := by
  have hfold : Node.program p.fold = ((Node.program p).foldFrom (freshId p.nodeIds)).1 := rfl
  refine ⟨fun path => ⟨?_, fun h => ?_⟩, fun path e id v source h hat hliteral => ?_,
    fun path path' id h h' hid hid' => ?_, fun path m hexposed hm hnot => ?_, fun path m' hm' => ?_⟩
  · rintro ⟨id, v, hfresh, hat⟩
    rw [hfold] at hat
    obtain ⟨hexposed, m, hm⟩ := Node.exposed_of_at?_foldFrom hat
    refine ⟨hexposed, m, hm, ?_⟩
    -- a node that was kept has an id of the program
    by_contra hnot
    obtain ⟨first, hat', -⟩ := Node.at?_foldFrom hexposed hm (freshId p.nodeIds)
    have hlabel := (Node.keeps hnot first).label
    rw [Option.some.inj (hat'.symm.trans hat)] at hlabel
    have hmem := Node.id_mem_of_at? hm
    rw [← hlabel] at hmem
    exact hfresh hmem
  · obtain ⟨_, id, v, -, hat, ⟨hid, -⟩, -⟩ := Node.literal_of_foldsAt h (freshId p.nodeIds)
    exact ⟨id, v, fun hmem => absurd (lt_freshId hmem) (Nat.not_lt.mpr hid), hat⟩
  · obtain ⟨e', id', v', hat', hliteral', -, hrun⟩ :=
      Node.literal_of_foldsAt h (freshId p.nodeIds)
    have he := Option.some.inj (hat'.symm.trans hat)
    have hv := Option.some.inj (hliteral'.symm.trans hliteral)
    simp only [Node.expr.injEq] at he
    simp only [Node.expr.injEq, Expr.number.injEq] at hv
    rw [← he, ← hv.2.1]
    exact hrun
  · exact h.eq_of_id h' hid hid'
  · obtain ⟨first, hat, -⟩ := Node.at?_foldFrom hexposed hm (freshId p.nodeIds)
    obtain ⟨hlabel, hchildren, -⟩ := Node.keeps hnot first
    refine ⟨_, hat, hlabel, ?_⟩
    rw [hchildren, Node.length_foldAllFrom]
  · exact Node.exposed_of_at?_foldFrom hm'

end Program

/-- **What folds, exactly.** An expression folds to a literal if and only if it is foldable, and then the
literal has the value that the machine computes for it. In a program, the largest foldable operators
become literals with fresh ids, everything else stays, and the count of nodes that folded is the number
of operators that are gone. -/
theorem fold_exact :
    (∀ e : Expr, ((∃ v, e.fold.value? = some v) ↔ e.Foldable) ∧
      ∀ v, e.fold.value? = some v → ∀ locals limit, e.compile.run locals limit = pure v) ∧
    ∀ p : Program, p.FoldsTo p.fold ∧ p.fold.operators + p.foldCount = p.operators := by
  refine ⟨fun e => ⟨e.exists_value_iff _, fun v h => ?_⟩, fun p => ⟨p.foldsTo_fold, p.operators_fold⟩⟩
  exact Expr.run_of_value h

end Abacus
