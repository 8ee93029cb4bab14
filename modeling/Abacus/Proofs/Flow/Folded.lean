import Abacus.Proofs.Flow.Edges
import Abacus.Proofs.Flow.SideBySide
import Abacus.Proofs.Fresh

/-!
# Folding and the flow graph

What is folded away are numbers and operators on numbers. Nothing flows into them but the results of
built-in functions, which are numbers, and a folded operator becomes a number itself. So no value that
could clash with a number ever gets there, and the walks over a tree and over the folded tree go side
by side (`Inference.folds_expr`, `Inference.folds_stmtIn`). Folding leaves the mismatches of a program
as they are (`Program.mismatches_fold`).
-/
namespace Abacus

/-! ## Expressions -/

/-! ### Expressions that fold -/

/-- An expression of literals and operators. -/
def Expr.Constant : Expr → Prop
  | .number _ _ _ => True
  | .var _ _ => False
  | .binary _ _ left right => left.Constant ∧ right.Constant
  | .negate _ operand => operand.Constant
  | .call _ _ _ => False

/-- Only constants fold to literals. -/
theorem Expr.constant_of_foldFrom : ∀ (next : NodeId) {e : Expr},
    (e.foldFrom next).1.value? ≠ none → e.Constant
  | _, .number _ _ _, _ => trivial
  | _, .var _ _, h => absurd rfl h
  | next, .binary id op left right, h => by
    rcases Expr.foldFrom_binary_cases next id op left right with ⟨-, hkept⟩ | ⟨x, y, hx, hy, -⟩
    · rw [hkept] at h
      exact absurd rfl h
    · exact ⟨constant_of_foldFrom _ (Option.ne_none_iff_exists'.mpr ⟨x, hx⟩),
        constant_of_foldFrom _ (Option.ne_none_iff_exists'.mpr ⟨y, hy⟩)⟩
  | next, .negate id operand, h => by
    rcases Expr.foldFrom_negate_cases next id operand with ⟨-, hkept⟩ | ⟨x, hx, -⟩
    · rw [hkept] at h
      exact absurd rfl h
    · exact constant_of_foldFrom next (e := operand) (Option.ne_none_iff_exists'.mpr ⟨x, hx⟩)
  | _, .call _ _ _, h => absurd rfl h

theorem Expr.foldFrom_binary (next id : NodeId) (op : Operator) (left right : Expr) :
    ((Expr.binary id op left right).foldFrom next).1 =
        .binary id op (left.foldFrom next).1 (right.foldFrom (left.foldFrom next).2).1 ∨
      (Expr.binary id op left right).Constant ∧
        ∃ n v, ((Expr.binary id op left right).foldFrom next).1 = .number n v none := by
  rcases Expr.foldFrom_binary_cases next id op left right with
    ⟨-, hkept⟩ | ⟨x, y, -, -, -, hliteral⟩
  · exact .inl (congrArg Prod.fst hkept)
  · refine .inr ⟨Expr.constant_of_foldFrom next ?_, _, _, congrArg Prod.fst hliteral⟩
    rw [hliteral]
    exact nofun

theorem Expr.foldFrom_negate (next id : NodeId) (operand : Expr) :
    ((Expr.negate id operand).foldFrom next).1 = .negate id (operand.foldFrom next).1 ∨
      (Expr.negate id operand).Constant ∧
        ∃ n v, ((Expr.negate id operand).foldFrom next).1 = .number n v none := by
  rcases Expr.foldFrom_negate_cases next id operand with ⟨-, hkept⟩ | ⟨x, -, -, hliteral⟩
  · exact .inl (congrArg Prod.fst hkept)
  · refine .inr ⟨Expr.constant_of_foldFrom next ?_, _, _, congrArg Prod.fst hliteral⟩
    rw [hliteral]
    exact nofun

namespace Inference

variable {keep : List VertexId} {s t : Inference}

/-- Both walks have come to a vertex, and it is the same or has become a number. -/
def Meets (keep : List VertexId) (x y : Inference × VertexId) : Prop :=
  Folds keep x.1 y.1 ∧ keep[y.2]? = some x.2

/-- The vertices are only in the walk over the tree that is not folded. -/
def Gone (keep : List VertexId) (s : Inference) (us : List VertexId) : Prop :=
  ∀ u ∈ us, u ∉ keep ∧ u < s.graph.size

/-! #### Operators and calls -/

/-- An operator or a call in both walks. -/
theorem meets_apply (h : Folds keep s t) (node : Option NodeId) {sig sig' : Option Signature}
    (hsig : Option.Rel (Signature.Same keep s.graph t.graph) sig sig') {args args' : List VertexId}
    (hargs : List.Forall₂ (fun u v => keep[v]? = some u) args args') :
    ∃ keep', keep <+: keep' ∧ Meets keep'
      ((s.add .unknown node).1.apply sig args (s.add .unknown node).2, (s.add .unknown node).2)
      ((t.add .unknown node).1.apply sig' args' (t.add .unknown node).2,
        (t.add .unknown node).2) := by
  have hadd := h.add .unknown node
  have hprefix : keep <+: keep ++ [s.graph.size] := List.prefix_append _ _
  have hextends := (Grows.add s .unknown node).extends (.add t .unknown node) hprefix
  refine ⟨_, hprefix, hadd.apply (hsig.mono fun _ _ => hextends.signature)
    (hargs.imp fun _ _ => FlowGraph.getElem?_mono hprefix) ?_, h.last⟩
  exact h.last_same .unknown node

/-- An operator between operands that are gone, in the one walk only. -/
theorem apply_gone (h : Folds keep s t) {args : List VertexId} (hargs : Gone keep s args)
    (b : Builtin) (node : Option NodeId) :
    Folds keep ((s.add .unknown node).1.apply ((s.add .unknown node).1.builtins.get? b) args
      (s.add .unknown node).2) t ∧
    Gone keep ((s.add .unknown node).1.apply ((s.add .unknown node).1.builtins.get? b) args
      (s.add .unknown node).2) [(s.add .unknown node).2] := by
  have hadd := h.drop node (.inl rfl)
  have hlt : (s.add .unknown node).2 < (s.add .unknown node).1.graph.size :=
    (s.graph.size_add .unknown node).symm ▸ Nat.lt_succ_self _
  refine ⟨hadd.applyDropped (hadd.numbers b) (fun u hu => ⟨(hargs u hu).1, ?_⟩) _, fun u hu => ?_⟩
  · exact Nat.lt_trans (hargs u hu).2 hlt
  · obtain rfl := List.mem_singleton.mp hu
    exact ⟨h.graph.not_mem, Nat.lt_of_lt_of_le hlt (Grows.apply _ _ _ _).size_le⟩

/-- An operator between operands that are gone, which is a literal in the other walk. -/
theorem meets_folded (h : Folds keep s t) {args : List VertexId} (hargs : Gone keep s args)
    (b : Builtin) (node node' : Option NodeId) :
    ∃ keep', keep <+: keep' ∧ Meets keep'
      ((s.add .unknown node).1.apply ((s.add .unknown node).1.builtins.get? b) args
        (s.add .unknown node).2, (s.add .unknown node).2) (t.add .number node') := by
  have hadd := h.addFolded node node'
  refine ⟨_, List.prefix_append _ _, hadd.applyDropped (hadd.numbers b) (fun u hu => ?_) _, h.last⟩
  obtain ⟨hnot, hlt⟩ := hargs u hu
  refine ⟨fun hmem => ?_, (s.graph.size_add .unknown node).symm ▸ Nat.lt_succ_of_lt hlt⟩
  rcases List.mem_append.mp hmem with hold | hlast
  · exact hnot hold
  · exact Nat.ne_of_lt hlt (List.mem_singleton.mp hlast)

/-! #### Walks over expressions -/

theorem Gone.pair {s' : Inference} {u v : VertexId} (hu : Gone keep s [u]) (hv : Gone keep s' [v])
    (hgrows : s.graph.size ≤ s'.graph.size) : Gone keep s' [u, v] := by
  intro w hw
  rcases List.mem_pair.mp hw with rfl | rfl
  · obtain ⟨hnot, hlt⟩ := hu w List.mem_cons_self
    exact ⟨hnot, Nat.lt_of_lt_of_le hlt hgrows⟩
  · exact hv w List.mem_cons_self

/-- What is folded away is only in the walk over the tree that is not folded. -/
theorem folds_constant (scope : ScopeId) : ∀ {e : Expr} {s : Inference}, e.Constant →
    Folds keep s t → Folds keep (expr scope s e).1 t ∧ Gone keep (expr scope s e).1 [(expr scope s e).2]
  | .number id _ _, s, _, h => by
    refine ⟨h.drop (some id) (.inr rfl), fun u hu => ?_⟩
    obtain rfl := List.mem_singleton.mp hu
    exact ⟨h.graph.not_mem, (s.graph.size_add _ _).symm ▸ Nat.lt_succ_self _⟩
  | .binary id op left right, s, ⟨hleft, hright⟩, h => by
    obtain ⟨hleft, hleftGone⟩ := folds_constant scope hleft h
    obtain ⟨hright, hrightGone⟩ := folds_constant scope hright hleft
    exact apply_gone hright (hleftGone.pair hrightGone (grows_expr scope _ right).size_le)
      (.ofOperator op) (some id)
  | .negate id operand, s, he, h => by
    obtain ⟨hoperand, hgone⟩ := folds_constant (e := operand) scope he h
    exact apply_gone hoperand hgone .negate (some id)

mutual

theorem folds_expr (scope : ScopeId) : ∀ (next : NodeId) (e : Expr) {keep : List VertexId}
    {s t : Inference}, Folds keep s t →
      ∃ keep', keep <+: keep' ∧
        Meets keep' (expr scope s e) (expr scope t (e.foldFrom next).1)
  | next, .number id _ _, keep, s, t, h =>
    ⟨_, List.prefix_append _ _, h.add .number (some id), h.last⟩
  | next, .var id x, keep, s, t, h => by
    have hadd := h.add .unknown (some id)
    refine ⟨_, List.prefix_append _ _, hadd.flowFrom? (hadd.scopes.locals scope x) ?_, h.last⟩
    exact h.last_same .unknown (some id)
  | next, .binary id op left right, keep, s, t, h => by
    rcases Expr.foldFrom_binary next id op left right with hkept | ⟨⟨hleft, hright⟩, n, v, hnumber⟩
    · rw [hkept]
      obtain ⟨keep₁, hprefix₁, hleft, hleftVertex⟩ := folds_expr scope next left h
      obtain ⟨keep₂, hprefix₂, hright, hrightVertex⟩ :=
        folds_expr scope (left.foldFrom next).2 right hleft
      obtain ⟨keep₃, hprefix₃, hmeets⟩ := meets_apply hright (some id)
        (hright.builtins (.ofOperator op))
        (.cons (FlowGraph.getElem?_mono hprefix₂ hleftVertex) (.cons hrightVertex .nil))
      exact ⟨keep₃, hprefix₁.trans (hprefix₂.trans hprefix₃), hmeets⟩
    · rw [hnumber]
      obtain ⟨hleft, hleftGone⟩ := folds_constant scope hleft h
      obtain ⟨hright, hrightGone⟩ := folds_constant scope hright hleft
      exact meets_folded hright (hleftGone.pair hrightGone (grows_expr scope _ right).size_le)
        (.ofOperator op) (some id) (some n)
  | next, .negate id operand, keep, s, t, h => by
    rcases Expr.foldFrom_negate next id operand with hkept | ⟨hconstant, n, v, hnumber⟩
    · rw [hkept]
      obtain ⟨keep₁, hprefix₁, hoperand, hvertex⟩ := folds_expr scope next operand h
      obtain ⟨keep₂, hprefix₂, hmeets⟩ := meets_apply hoperand (some id)
        (hoperand.builtins .negate) (.cons hvertex .nil)
      exact ⟨keep₂, hprefix₁.trans hprefix₂, hmeets⟩
    · rw [hnumber]
      obtain ⟨hoperand, hgone⟩ := folds_constant (e := operand) scope hconstant h
      exact meets_folded hoperand hgone .negate (some id) (some n)
  | next, .call id f args, keep, s, t, h => by
    obtain ⟨keep₁, hprefix₁, hargs, hvertices⟩ := folds_exprs scope next args h
    obtain ⟨keep₂, hprefix₂, hmeets⟩ := meets_apply hargs (some id) (hargs.function? scope f)
      hvertices
    exact ⟨keep₂, hprefix₁.trans hprefix₂, hmeets⟩

theorem folds_exprs (scope : ScopeId) : ∀ (next : NodeId) (es : List Expr) {keep : List VertexId}
    {s t : Inference}, Folds keep s t →
      ∃ keep', keep <+: keep' ∧
        Folds keep' (exprs scope s es).1 (exprs scope t (Expr.foldAllFrom next es).1).1 ∧
          List.Forall₂ (fun u v => keep'[v]? = some u) (exprs scope s es).2
            (exprs scope t (Expr.foldAllFrom next es).1).2
  | _, [], keep, _, _, h => ⟨keep, List.prefix_refl _, h, .nil⟩
  | next, e :: rest, keep, s, t, h => by
    obtain ⟨keep₁, hprefix₁, he, hvertex⟩ := folds_expr scope next e h
    obtain ⟨keep₂, hprefix₂, hrest, hvertices⟩ := folds_exprs scope (e.foldFrom next).2 rest he
    exact ⟨keep₂, hprefix₁.trans hprefix₂, hrest,
      .cons (FlowGraph.getElem?_mono hprefix₂ hvertex) hvertices⟩

end

end Inference

/-! ### Statements -/

mutual

theorem Stmt.scopeCount_foldFrom : ∀ (next : NodeId) (s : Stmt),
    (s.foldFrom next).1.scopeCount = s.scopeCount
  | next, .define _ _ _ _ body => congrArg (1 + ·) (Stmt.scopeCountAll_foldAllFrom next body)
  | _, .assign _ _ _ => rfl
  | _, .expr _ => rfl

theorem Stmt.scopeCountAll_foldAllFrom : ∀ (next : NodeId) (ss : List Stmt),
    Stmt.scopeCountAll (Stmt.foldAllFrom next ss).1 = Stmt.scopeCountAll ss
  | _, [] => rfl
  | next, s :: rest => by
    have hs := Stmt.scopeCount_foldFrom next s
    have hrest := Stmt.scopeCountAll_foldAllFrom (s.foldFrom next).2 rest
    simp only [Stmt.foldAllFrom, Stmt.scopeCountAll, hs, hrest]

end

namespace Inference

variable {keep : List VertexId} {s t : Inference}

theorem folds_params (body : ScopeId) : ∀ (ps : List Param) {keep : List VertexId}
    {s t : Inference}, Folds keep s t →
      ∃ keep', keep <+: keep' ∧ Folds keep' (params body s ps).1 (params body t ps).1 ∧
        List.Forall₂ (FlowGraph.Same keep' (params body s ps).1.graph (params body t ps).1.graph)
          (params body s ps).2 (params body t ps).2
  | [], keep, _, _, h => ⟨keep, List.prefix_refl _, h, .nil⟩
  | p :: rest, keep, s, t, h => by
    have hadd := h.add .unknown (some p.id)
    obtain ⟨keep₁, hprefix, hrest, hvertices⟩ := folds_params body rest
      (hadd.setLocal body p.name h.last)
    have hextends := (grows_params body ((s.add .unknown (some p.id)).1.setLocal body p.name
      s.graph.size) rest).extends (grows_params body ((t.add .unknown (some p.id)).1.setLocal body
      p.name t.graph.size) rest) hprefix
    exact ⟨keep₁, (List.prefix_append _ _).trans hprefix, hrest,
      .cons (hextends.same (h.last_same .unknown (some p.id))) hvertices⟩

theorem folds_define (h : Folds keep s t) (scope : ScopeId) (f : String) {ps ps' : List VertexId}
    (hps : List.Forall₂ (FlowGraph.Same keep s.graph t.graph) ps ps') :
    ∃ keep', keep <+: keep' ∧ Folds keep' (s.define scope f ps).1 (t.define scope f ps').1 ∧
      FlowGraph.Same keep' (s.define scope f ps).1.graph (t.define scope f ps').1.graph
        (s.define scope f ps).2.returns (t.define scope f ps').2.returns := by
  have hfunction := h.add .function none
  have hreturns := hfunction.add .unknown none
  have hprefix : keep <+: keep ++ [s.graph.size] ++ [(s.add .function none).1.graph.size] :=
    (List.prefix_append _ _).trans (List.prefix_append _ _)
  have hlast := hfunction.last_same .unknown none
  have hsize : (s.add .function none).1.graph.size = s.graph.size + 1 := s.graph.size_add _ _
  have hsize' : (t.add .function none).1.graph.size = t.graph.size + 1 := t.graph.size_add _ _
  rw [hsize] at hprefix hreturns hlast
  rw [hsize'] at hlast
  have hextends := ((Grows.add s .function none).trans (.add _ .unknown none)).extends
    ((Grows.add t .function none).trans (.add _ .unknown none)) hprefix
  have hsignature : Signature.Same _ _ _ (s.define scope f ps).2 (t.define scope f ps').2 :=
    ⟨hps.imp fun _ _ => hextends.same, hlast⟩
  exact ⟨_, hprefix, { hreturns with scopes := hreturns.scopes.define scope f hsignature }, hlast⟩

mutual

theorem folds_stmtIn : ∀ (scope next' : ScopeId) (next : NodeId) (stmt : Stmt)
    {keep : List VertexId} {s t : Inference}, Folds keep s t →
      ∃ keep', keep <+: keep' ∧
        Meets keep' (stmtIn scope next' s stmt) (stmtIn scope next' t (stmt.foldFrom next).1)
  | scope, inner, next, .define id f ps bodyId body, keep, s, t, h => by
    simp only [Meets, stmtIn, Stmt.foldFrom]
    have hstart := h.add .undefined (some id)
    have hvertex := h.last
    -- the parameters
    obtain ⟨keep₁, hprefix₁, hparams, hparamVertices⟩ := folds_params inner ps.params hstart
    generalize params inner (s.add .undefined (some id)).1 ps.params = p,
      params inner (t.add .undefined (some id)).1 ps.params = q at *
    -- the function itself
    obtain ⟨keep₂, hprefix₂, hdefine, hreturns⟩ := folds_define hparams scope f hparamVertices
    generalize p.1.define scope f p.2 = d, q.1.define scope f q.2 = e at *
    -- the list of its statements
    have hlist := hdefine.add .unknown (some bodyId)
    have hlistVertex := hdefine.last_same .unknown (some bodyId)
    have hprefixList : keep₂ <+: keep₂ ++ [d.1.graph.size] := List.prefix_append _ _
    have hextendsList := (Grows.add d.1 .unknown (some bodyId)).extends
      (.add e.1 .unknown (some bodyId)) hprefixList
    obtain ⟨keep₃, hprefix₃, hbody, hlast⟩ := folds_stmtsIn inner (inner + 1) next body hlist .none
    have hextendsBody := (grows_stmtsIn inner (inner + 1) (d.1.add .unknown (some bodyId)).1 none
      body).extends (grows_stmtsIn inner (inner + 1) (e.1.add .unknown (some bodyId)).1 none
        (Stmt.foldAllFrom next body).1) hprefix₃
    have hlistSame := hextendsBody.same hlistVertex
    have hreturnsSame := hextendsBody.same (hextendsList.same hreturns)
    generalize stmtsIn inner (inner + 1) (d.1.add .unknown (some bodyId)).1 none body = x,
      stmtsIn inner (inner + 1) (e.1.add .unknown (some bodyId)).1 none
        (Stmt.foldAllFrom next body).1 = y at *
    have hextendsLast := (Grows.flowFrom? x.1 x.2 d.1.graph.size).extends
      (.flowFrom? y.1 y.2 e.1.graph.size) (List.prefix_refl keep₃)
    have hlastFlow := hbody.flowFrom? hlast hlistSame
    have hprefix : keep ++ [s.graph.size] <+: keep₃ :=
      hprefix₁.trans (hprefix₂.trans (hprefixList.trans hprefix₃))
    exact ⟨keep₃, (List.prefix_append _ _).trans hprefix,
      hlastFlow.flow hlistSame.1 (hextendsLast.same hreturnsSame),
      FlowGraph.getElem?_mono hprefix hvertex⟩
  | scope, inner, next, .assign id x value, keep, s, t, h => by
    simp only [Meets, stmtIn, Stmt.foldFrom]
    have hstart := h.add .undefined (some id)
    obtain ⟨keep₁, hprefix₁, hvalue, hvalueVertex⟩ := folds_expr scope next value hstart
    generalize expr scope (s.add .undefined (some id)).1 value = p,
      expr scope (t.add .undefined (some id)).1 (value.foldFrom next).1 = q at *
    have htarget := hvalue.add .unknown none
    have hprefix₂ : keep₁ <+: keep₁ ++ [p.1.graph.size] := List.prefix_append _ _
    have hflow := htarget.flow (FlowGraph.getElem?_mono hprefix₂ hvalueVertex)
      (hvalue.last_same .unknown none)
    refine ⟨_, ((List.prefix_append _ _).trans hprefix₁).trans hprefix₂,
      hflow.setLocal scope x hvalue.last, ?_⟩
    exact FlowGraph.getElem?_mono (hprefix₁.trans hprefix₂) h.last
  | scope, _, next, .expr e, _, _, _, h => folds_expr scope next e h

theorem folds_stmtsIn : ∀ (scope inner : ScopeId) (next : NodeId) (ss : List Stmt)
    {keep : List VertexId} {s t : Inference} {last last' : Option VertexId}, Folds keep s t →
      Option.Rel (fun u v => keep[v]? = some u) last last' →
        ∃ keep', keep <+: keep' ∧
          Folds keep' (stmtsIn scope inner s last ss).1
            (stmtsIn scope inner t last' (Stmt.foldAllFrom next ss).1).1 ∧
          Option.Rel (fun u v => keep'[v]? = some u) (stmtsIn scope inner s last ss).2
            (stmtsIn scope inner t last' (Stmt.foldAllFrom next ss).1).2
  | _, _, _, [], keep, _, _, _, _, h, hlast => ⟨keep, List.prefix_refl _, h, hlast⟩
  | scope, inner, next, first :: rest, keep, s, t, last, last', h, _ => by
    obtain ⟨keep₁, hprefix₁, hfirst, hvertex⟩ := folds_stmtIn scope inner next first h
    obtain ⟨keep₂, hprefix₂, hrest, hlast⟩ := folds_stmtsIn scope (inner + first.scopeCount)
      (first.foldFrom next).2 rest hfirst (.some hvertex)
    refine ⟨keep₂, hprefix₁.trans hprefix₂, ?_⟩
    simp only [Stmt.foldAllFrom, stmtsIn, Stmt.scopeCount_foldFrom]
    exact ⟨hrest, hlast⟩

end

end Inference

/-! ## Programs -/

mutual

/-- Folding leaves the scopes as they are. -/
theorem Scopes.scopes_addStmt (scope : ScopeId) : ∀ (next : NodeId) (stmt : Stmt) {s t : Scopes},
    s.scopes = t.scopes → (addStmt scope s stmt).scopes =
      (addStmt scope t (stmt.foldFrom next).1).scopes
  | next, .define id _ _ bodyId body, s, t, h => by
    simp only [Stmt.foldFrom, addStmt]
    have hsize : (s.place id scope).scopes.size = (t.place id scope).scopes.size :=
      congrArg Array.size h
    rw [hsize]
    refine Scopes.scopes_addStmts _ next body ?_
    simp only [openScope, place, h]
  | _, .assign _ _ _, _, _, h => h
  | _, .expr _, _, _, h => h

theorem Scopes.scopes_addStmts (scope : ScopeId) : ∀ (next : NodeId) (ss : List Stmt)
    {s t : Scopes}, s.scopes = t.scopes → (addStmts scope s ss).scopes =
      (addStmts scope t (Stmt.foldAllFrom next ss).1).scopes
  | _, [], _, _, h => h
  | next, stmt :: rest, _, _, h =>
    Scopes.scopes_addStmts scope (stmt.foldFrom next).2 rest (Scopes.scopes_addStmt scope next stmt h)

end

theorem Scopes.scopes_fold (p : Program) :
    (Scopes.ofProgram p).scopes = (Scopes.ofProgram p.fold).scopes :=
  Scopes.scopes_addStmts 0 (freshId p.nodeIds) p.stmts rfl

namespace Inference

/-- The built-in functions are the same whatever the scopes. -/
theorem start_eq (scopes scopes' : Scopes) : start scopes = { start scopes' with scopes } := by
  have hfold : ∀ (bs : List Builtin) (s : Inference),
      bs.foldl declare { s with scopes } = { bs.foldl declare s with scopes } := by
    intro bs
    induction bs with
    | nil => exact fun _ => rfl
    | cons b rest ih => exact fun s => ih (s.declare b)
  rw [start_eq_foldl, start_eq_foldl]
  exact hfold Builtin.all { graph := .empty, scopes := scopes', builtins := {} }

theorem edges_start (scopes : Scopes) : (start scopes).graph.edges = #[] :=
  start_induct (motive := fun s => s.graph.edges = #[]) rfl fun s b hs =>
    (Signature.edges_builtin s.graph b).trans hs

/-- Built-in functions return numbers. -/
theorem numbers_start (scopes : Scopes) : ∀ b sig, (start scopes).builtins.get? b = some sig →
    (start scopes).graph.kind? sig.returns = some .number := by
  refine start_induct (motive := fun s => ∀ b sig, s.builtins.get? b = some sig →
    s.graph.kind? sig.returns = some .number) nofun fun s b hs b' sig hsig => ?_
  refine Table.of_get?_insert (P := fun _ sig => (s.declare b).graph.kind? sig.returns = some .number)
    (fun b' sig hsig => ?_) ?_ b' sig hsig
  · obtain ⟨r, hr, heq⟩ := Option.map_eq_some_iff.mp (hs b' sig hsig)
    have hlt := s.graph.lt_size hr
    exact (FlowGraph.kind?_of_vertex ((Signature.vertex_builtin_of_lt b hlt).trans hr)).trans
      (congrArg some heq)
  · exact FlowGraph.kind?_of_vertex (Signature.number_builtin (.inr rfl))

/-- The walks start with the same vertices. -/
theorem folds_start {scopes scopes' : Scopes} (hscopes : scopes.scopes = scopes'.scopes)
    (hbare : scopes.Bare) (hbare' : scopes'.Bare) :
    Folds (List.range (start scopes).graph.size) (start scopes) (start scopes') := by
  have hsound := sound_start (F := Vertex.Valued) (T := fun _ => True) hbare nofun trivial
  have hedges := edges_start scopes
  have hnumbers := numbers_start scopes
  have hstart := start_eq scopes' scopes
  have hstartScopes : (start scopes).scopes = scopes := rfl
  generalize start scopes = s at *
  rw [hstart]
  have hrange : ∀ {v : VertexId}, v < s.graph.size → (List.range s.graph.size)[v]? = some v :=
    fun hv => List.getElem?_range hv
  have hsame : ∀ {P : Vertex → Prop} {v : VertexId}, s.graph.Has P v →
      FlowGraph.Same (List.range s.graph.size) s.graph s.graph v v := by
    rintro P v ⟨r, hr, -⟩
    exact ⟨hrange (s.graph.lt_size hr), r, hr, hr⟩
  have hrooted : s.graph.Rooted := by
    intro edge hedge
    rw [hedges] at hedge
    exact absurd hedge (Array.not_mem_empty _)
  have hgraph : s.graph.Folds (List.range s.graph.size) s.graph := by
    refine ⟨List.length_range, List.pairwise_lt_range, fun u v hv => ?_, fun u hu hnot => ?_,
      fun u v hsame hkind => ?_⟩
    · obtain ⟨hlt, heq⟩ := List.getElem?_eq_some_iff.mp hv
      rw [List.getElem_range] at heq
      rw [List.length_range] at hlt
      subst heq
      exact .inl ⟨hv, _, Array.getElem?_eq_getElem hlt, Array.getElem?_eq_getElem hlt⟩
    · exact absurd (List.mem_range.mpr hu) hnot
    · have hnone : ∀ v, s.graph.successors v = [] := by
        intro v
        rw [FlowGraph.successors, hedges]
        rfl
      rw [hnone, hnone]
      exact .nil
  have hfolds : s.scopes.Folds (List.range s.graph.size) s.graph s.graph scopes' := by
    rw [hstartScopes]
    refine ⟨congrArg Array.size hscopes, fun k => ?_, fun k x => ?_, fun k f => ?_⟩
    · rw [Scopes.parent?, hscopes, Scopes.parent?]
    · rw [hbare.locals, hbare'.locals]
      exact .none
    · rw [hbare.functions, hbare'.functions]
      exact .none
  refine ⟨hgraph, hrooted, hrooted, hfolds, fun b => ?_, hnumbers⟩
  change Option.Rel _ (s.builtins.get? b) (s.builtins.get? b)
  cases hget : s.builtins.get? b with
  | none => exact .none
  | some sig =>
    obtain ⟨hparams, hreturns⟩ := hsound.builtins b sig hget
    exact .some ⟨List.forall₂_same.mpr fun v hv => hsame (hparams v hv), hsame hreturns⟩

theorem endsInDefine_fold (next : NodeId) (ss : List Stmt) :
    endsInDefine (Stmt.foldAllFrom next ss).1 = endsInDefine ss := by
  have hdefine : ∀ (next : NodeId) (s : Stmt),
      (s.foldFrom next).1.define?.isSome = s.define?.isSome := by
    intro next s
    cases s <;> rfl
  have hempty : ∀ (next : NodeId) (ss : List Stmt),
      (Stmt.foldAllFrom next ss).1 = [] ↔ ss = [] := by
    intro next ss
    cases ss with
    | nil => exact Iff.rfl
    | cons s rest => exact ⟨nofun, nofun⟩
  unfold endsInDefine
  induction ss generalizing next with
  | nil => rfl
  | cons s rest ih =>
    cases rest with
    | nil => exact hdefine next s
    | cons s' rest =>
      have hrest := ih (s.foldFrom next).2
      simp only [Stmt.foldAllFrom, List.getLast?_cons_cons] at hrest ⊢
      exact hrest

theorem folds_finish {keep : List VertexId} {s t : Inference} (h : Folds keep s t) (p : Program)
    {list list' : VertexId} (hlist : FlowGraph.Same keep s.graph t.graph list list')
    {last last' : Option VertexId} (hlast : Option.Rel (fun u v => keep[v]? = some u) last last') :
    ∃ keep', Folds keep' (finish p list s last) (finish p.fold list' t last') := by
  have hends : endsInDefine p.fold.stmts = endsInDefine p.stmts :=
    endsInDefine_fold (freshId p.nodeIds) p.stmts
  have hflow := h.flowFrom? hlast hlist
  unfold finish
  rw [hends]
  by_cases hend : endsInDefine p.stmts
  · rw [if_pos hend, if_pos hend]
    exact ⟨keep, hflow⟩
  · rw [if_neg hend, if_neg hend]
    have hadd := hflow.add .number (some p.id)
    exact ⟨_, hadd.flow (FlowGraph.getElem?_mono (List.prefix_append _ _) hlist.1)
      (hflow.last_same .number (some p.id))⟩

/-- The walk over a folded program is the walk over the program, less what is folded away. -/
theorem folds_ofProgram {p : Program} (h : p.nodeIds.Nodup) :
    ∃ keep, Folds keep (ofProgram p) (ofProgram p.fold) := by
  rw [ofProgram_eq h, ofProgram_eq (Program.nodup_fold h)]
  have hstart := folds_start (Scopes.scopes_fold p) (Scopes.bare_ofProgram p)
    (Scopes.bare_ofProgram p.fold)
  unfold begin
  generalize start (.ofProgram p) = s, start (.ofProgram p.fold) = t at hstart ⊢
  have hlist := hstart.add .unknown (some p.body.id)
  obtain ⟨keep, hprefix, hwalk, hlast⟩ := folds_stmtsIn 0 1 (freshId p.nodeIds) p.stmts hlist .none
  have hextends := (grows_stmtsIn 0 1 (s.add .unknown (some p.body.id)).1 none p.stmts).extends
    (grows_stmtsIn 0 1 (t.add .unknown (some p.body.id)).1 none p.fold.stmts) hprefix
  exact folds_finish hwalk p (hextends.same (hstart.last_same .unknown (some p.body.id))) hlast

end Inference

namespace Program

/-- Nothing flows into the graph of a program but into unknown vertices and numbers. -/
theorem calm_flowGraph {p : Program} (h : p.nodeIds.Nodup) : p.flowGraph.Calm := by
  have hsound := Inference.sound_ofProgram (T := fun r => r.kind = .unknown ∨ r.kind = .number) h
    (.inl rfl) (.inr rfl) (.inr rfl) fun _ _ => .inl rfl
  refine ⟨fun edge hedge => ?_, fun edge hedge => ?_⟩
  · obtain ⟨r, hr, hvalued⟩ := hsound.sources edge hedge
    rw [flowGraph, FlowGraph.kind?_of_vertex hr]
    exact fun heq => hvalued (Option.some.inj heq)
  · obtain ⟨r, hr, htarget⟩ := hsound.targets edge hedge
    rw [flowGraph, FlowGraph.kind?_of_vertex hr]
    exact htarget.imp (congrArg some) (congrArg some)

/-- **Folding leaves the mismatches of a program as they are**: as many, in the same order, of the same
kinds at the same nodes. -/
theorem mismatches_fold (p : Program) (h : p.nodeIds.Nodup) : p.fold.mismatches = p.mismatches := by
  obtain ⟨keep, hfolds⟩ := Inference.folds_ofProgram h
  exact (hfolds.graph.mismatches_eq (calm_flowGraph h) (calm_flowGraph (nodup_fold h))).symm

/-- `f(a) = b = a`, then `f(1 + 2) + 3 * 4`: the assignment that `f` ends in has no value to add. -/
def undefinedSummand : Program :=
  .ofStmts
    [ .define unnumbered "f" { id := unnumbered, params := [{ id := unnumbered, name := "a" }] }
        unnumbered [.assign unnumbered "b" (.var unnumbered "a")],
      .expr (.binary unnumbered .add
        (.call unnumbered "f"
          [.binary unnumbered .add (.number unnumbered 1 none) (.number unnumbered 2 none)])
        (.binary unnumbered .multiply (.number unnumbered 3 none) (.number unnumbered 4 none))) ]

theorem mismatches_fold_undefinedSummand :
    undefinedSummand.nodeIds.Nodup ∧ undefinedSummand.foldCount = 2 ∧
      undefinedSummand.mismatches = [{ expected := .undefined, found := .number, node := none }] ∧
      undefinedSummand.fold.mismatches = undefinedSummand.mismatches := by
  have hnodup : undefinedSummand.nodeIds.Nodup := by decide
  exact ⟨hnodup, by decide +kernel, by decide +kernel, mismatches_fold undefinedSummand hnodup⟩

end Program
end Abacus
