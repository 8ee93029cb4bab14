import Abacus.Flow.Inference
import Abacus.Syntax.Node

/-!
# The scope that a statement is in

The walk over a tree finds the scope of a statement in a table by its id. If the ids of the tree are
all different then this is the scope one expects: that of the list that the statement stands in, and
the lists have their numbers in the order in which they open. `stmtsIn` is the walk with these
numbers counted along instead of looked up, and `ofProgram_eq` says that it is the same walk.
-/
namespace Abacus

/-! ## Scopes in order -/

mutual

/-- How many scopes a statement opens. -/
def Stmt.scopeCount : Stmt → Nat
  | .define _ _ _ _ body => 1 + Stmt.scopeCountAll body
  | .assign _ _ _ => 0
  | .expr _ => 0

def Stmt.scopeCountAll : List Stmt → Nat
  | [] => 0
  | s :: rest => s.scopeCount + Stmt.scopeCountAll rest

end

mutual

/-- The statement is in this scope, and the lists in it have scopes from `next` on. -/
def Stmt.Placed (table : Table NodeId ScopeId) (scope next : ScopeId) : Stmt → Prop
  | .define id _ _ bodyId body =>
    table.get? id = some scope ∧ table.get? bodyId = some next ∧
      Stmt.PlacedAll table next (next + 1) body
  | .assign id _ _ => table.get? id = some scope
  | .expr e => table.get? e.id = some scope

def Stmt.PlacedAll (table : Table NodeId ScopeId) (scope next : ScopeId) : List Stmt → Prop
  | [] => True
  | s :: rest =>
    s.Placed table scope next ∧ Stmt.PlacedAll table scope (next + s.scopeCount) rest

end

theorem Expr.id_mem_nodeIds (e : Expr) : e.id ∈ e.nodeIds := by
  cases e <;> exact List.mem_cons_self

/-! ## Tables that agree -/

mutual

theorem Stmt.Placed.congr {table table' : Table NodeId ScopeId} :
    ∀ {s : Stmt} {scope next : ScopeId}, s.Placed table scope next →
      (∀ id ∈ s.nodeIds, table'.get? id = table.get? id) → s.Placed table' scope next
  | .define id f params bodyId body, scope, next, ⟨hid, hbodyId, hbody⟩, h => by
    have hmem : ∀ i ∈ bodyId :: Stmt.nodeIdsAll body,
        i ∈ (Stmt.define id f params bodyId body).nodeIds := by
      intro i hi
      exact List.mem_cons_of_mem _ (List.mem_append_right _ hi)
    refine ⟨?_, ?_, ?_⟩
    · rw [h id List.mem_cons_self, hid]
    · rw [h bodyId (hmem _ List.mem_cons_self), hbodyId]
    · exact Stmt.PlacedAll.congr hbody fun i hi => h i (hmem i (List.mem_cons_of_mem _ hi))
  | .assign id x value, scope, next, hid, h => by
    exact (h id List.mem_cons_self).trans hid
  | .expr e, scope, next, hid, h => (h e.id e.id_mem_nodeIds).trans hid

theorem Stmt.PlacedAll.congr {table table' : Table NodeId ScopeId} :
    ∀ {ss : List Stmt} {scope next : ScopeId}, Stmt.PlacedAll table scope next ss →
      (∀ id ∈ Stmt.nodeIdsAll ss, table'.get? id = table.get? id) →
        Stmt.PlacedAll table' scope next ss
  | [], _, _, _, _ => trivial
  | _ :: _, _, _, ⟨hs, hrest⟩, h =>
    ⟨hs.congr fun i hi => h i (List.mem_append_left _ hi),
      Stmt.PlacedAll.congr hrest fun i hi => h i (List.mem_append_right _ hi)⟩

end

/-! ## Placing statements -/

namespace Scopes

mutual

theorem get?_addStmt (scope : ScopeId) : ∀ (s : Scopes) (stmt : Stmt) (id : NodeId),
    id ∉ stmt.nodeIds → (addStmt scope s stmt).ofNode.get? id = s.ofNode.get? id
  | s, .define stmtId f params bodyId body, id, h => by
    simp only [Stmt.nodeIds, List.mem_cons, List.mem_append, not_or] at h
    obtain ⟨hid, -, hbodyId, hbody⟩ := h
    unfold addStmt
    rw [get?_addStmts _ _ body id hbody]
    simp only [openScope, place, Table.get?_insert, if_neg (Ne.symm hbodyId), if_neg (Ne.symm hid)]
  | s, .assign stmtId x value, id, h => by
    simp only [Stmt.nodeIds, List.mem_cons, not_or] at h
    simp only [addStmt, place, Table.get?_insert, if_neg (Ne.symm h.1)]
  | s, .expr e, id, h => by
    have hne : e.id ≠ id := by
      rintro rfl
      exact h e.id_mem_nodeIds
    simp only [addStmt, place, Table.get?_insert, if_neg hne]

theorem get?_addStmts (scope : ScopeId) : ∀ (s : Scopes) (stmts : List Stmt) (id : NodeId),
    id ∉ Stmt.nodeIdsAll stmts → (addStmts scope s stmts).ofNode.get? id = s.ofNode.get? id
  | _, [], _, _ => rfl
  | s, stmt :: rest, id, h => by
    simp only [Stmt.nodeIdsAll, List.mem_append, not_or] at h
    unfold addStmts
    rw [get?_addStmts scope _ rest id h.2, get?_addStmt scope s stmt id h.1]

end

mutual

theorem size_addStmt (scope : ScopeId) : ∀ (s : Scopes) (stmt : Stmt),
    (addStmt scope s stmt).scopes.size = s.scopes.size + stmt.scopeCount
  | s, .define id f params bodyId body => by
    unfold addStmt
    rw [size_addStmts _ _ body]
    simp only [openScope, place, Array.size_push, Stmt.scopeCount]
    omega
  | _, .assign _ _ _ => rfl
  | _, .expr _ => rfl

theorem size_addStmts (scope : ScopeId) : ∀ (s : Scopes) (stmts : List Stmt),
    (addStmts scope s stmts).scopes.size = s.scopes.size + Stmt.scopeCountAll stmts
  | _, [] => rfl
  | s, stmt :: rest => by
    unfold addStmts
    rw [size_addStmts scope _ rest, size_addStmt scope s stmt, Stmt.scopeCountAll]
    omega

end

mutual

theorem placed_addStmt (scope : ScopeId) : ∀ (s : Scopes) (stmt : Stmt), stmt.nodeIds.Nodup →
    stmt.Placed (addStmt scope s stmt).ofNode scope s.scopes.size
  | s, .define id f params bodyId body, h => by
    simp only [Stmt.nodeIds, List.nodup_cons, List.mem_append, List.mem_cons, not_or,
      List.nodup_append] at h
    obtain ⟨⟨-, hid, hidBody⟩, -, ⟨hbodyId, hbody⟩, -⟩ := h
    unfold addStmt
    refine ⟨?_, ?_, ?_⟩
    · rw [get?_addStmts _ _ body id hidBody]
      simp only [openScope, place, Table.get?_insert, if_neg (Ne.symm hid), if_true]
    · rw [get?_addStmts _ _ body bodyId hbodyId]
      simp only [openScope, place, Table.get?_insert, if_true]
    · have hplaced := placed_addStmts s.scopes.size
        ((s.place id scope).openScope (some scope) bodyId) body hbody
      have hsize : ((s.place id scope).openScope (some scope) bodyId).scopes.size =
          s.scopes.size + 1 := Array.size_push ..
      rwa [hsize] at hplaced
  | _, .assign _ _ _, _ => Table.get?_insert_self _ _ _
  | _, .expr _, _ => Table.get?_insert_self _ _ _

theorem placed_addStmts (scope : ScopeId) : ∀ (s : Scopes) (stmts : List Stmt),
    (Stmt.nodeIdsAll stmts).Nodup →
      Stmt.PlacedAll (addStmts scope s stmts).ofNode scope s.scopes.size stmts
  | _, [], _ => trivial
  | s, stmt :: rest, h => by
    simp only [Stmt.nodeIdsAll, List.nodup_append] at h
    obtain ⟨hstmt, hrest, hdisjoint⟩ := h
    unfold addStmts
    refine ⟨(placed_addStmt scope s stmt hstmt).congr fun id hid => ?_, ?_⟩
    · exact get?_addStmts scope _ rest id fun hmem => hdisjoint id hid id hmem rfl
    · rw [← size_addStmt scope s stmt]
      exact placed_addStmts scope _ rest hrest

end

/-- In a program with different ids all statements are placed as they stand. -/
theorem placed_ofProgram {p : Program} (h : p.nodeIds.Nodup) :
    Stmt.PlacedAll (ofProgram p).ofNode 0 1 p.stmts := by
  have hstmts : (Stmt.nodeIdsAll p.stmts).Nodup :=
    (List.nodup_cons.mp (List.nodup_cons.mp h).2).2
  exact placed_addStmts 0 (empty.openScope none p.body.id) p.stmts hstmts

end Scopes

/-! ## The walk with scopes counted along -/

namespace Inference

mutual

/-- Adds a statement in a scope; the lists in it have scopes from `next` on. -/
def stmtIn (scope next : ScopeId) (s : Inference) : Stmt → Inference × VertexId
  | .define id name ps bodyId body =>
    let (s, vertex) := s.add .undefined (some id)
    let (s, ps) := params next s ps.params
    let (s, signature) := s.define scope name ps
    let (s, list) := s.add .unknown (some bodyId)
    let (s, last) := stmtsIn next (next + 1) s none body
    (((s.flowFrom? last list).flow list signature.returns), vertex)
  | .assign id name value =>
    let (s, vertex) := s.add .undefined (some id)
    let (s, value) := expr scope s value
    let (s, target) := s.add .unknown none
    ((s.flow value target).setLocal scope name target, vertex)
  | .expr e => expr scope s e

def stmtsIn (scope next : ScopeId) (s : Inference) (last : Option VertexId) :
    List Stmt → Inference × Option VertexId
  | [] => (s, last)
  | first :: rest =>
    let (s, vertex) := stmtIn scope next s first
    stmtsIn scope (next + first.scopeCount) s (some vertex) rest

end

/-! ### The walk does not change where statements are -/

theorem scopes_flowFrom? (s : Inference) (lower : Option VertexId) (upper : VertexId) :
    (s.flowFrom? lower upper).scopes = s.scopes := by
  cases lower <;> rfl

theorem scopes_apply (s : Inference) (signature : Option Signature) (args : List VertexId)
    (result : VertexId) : (s.apply signature args result).scopes = s.scopes := by
  cases signature with
  | none => rfl
  | some signature =>
    unfold apply
    dsimp only [flow]
    induction args.zip signature.params generalizing s with
    | nil => rfl
    | cons pair rest ih => exact ih _

mutual

theorem scopes_expr (scope : ScopeId) : ∀ (s : Inference) (e : Expr),
    (expr scope s e).1.scopes = s.scopes
  | _, .number _ _ _ => rfl
  | s, .var id name => by
    simp only [expr, scopes_flowFrom?]
    rfl
  | s, .binary id op left right => by
    simp only [expr, scopes_apply]
    simp only [add, scopes_expr scope _ right, scopes_expr scope s left]
  | s, .negate id operand => by
    simp only [expr, scopes_apply]
    simp only [add, scopes_expr scope s operand]
  | s, .call id name args => by
    simp only [expr, scopes_apply]
    simp only [add, scopes_exprs scope s args]

theorem scopes_exprs (scope : ScopeId) : ∀ (s : Inference) (es : List Expr),
    (exprs scope s es).1.scopes = s.scopes
  | _, [] => rfl
  | s, e :: rest => by
    simp only [exprs, scopes_exprs scope _ rest, scopes_expr scope s e]

end

theorem ofNode_params (body : ScopeId) : ∀ (s : Inference) (ps : List Param),
    (params body s ps).1.scopes.ofNode = s.scopes.ofNode
  | _, [] => rfl
  | _, _ :: rest => ofNode_params body _ rest

mutual

theorem ofNode_stmtIn : ∀ (scope next : ScopeId) (s : Inference) (stmt : Stmt),
    (stmtIn scope next s stmt).1.scopes.ofNode = s.scopes.ofNode
  | scope, next, s, .define id name ps bodyId body => by
    simp only [stmtIn, flow, scopes_flowFrom?]
    rw [ofNode_stmtsIn next (next + 1) _ none body]
    simp only [add, define, Scopes.define]
    exact ofNode_params next _ ps.params
  | scope, next, s, .assign id name value => by
    simp only [stmtIn, setLocal, Scopes.setLocal, flow, add, scopes_expr]
  | scope, next, s, .expr e => congrArg Scopes.ofNode (scopes_expr scope s e)

theorem ofNode_stmtsIn : ∀ (scope next : ScopeId) (s : Inference) (last : Option VertexId)
    (ss : List Stmt), (stmtsIn scope next s last ss).1.scopes.ofNode = s.scopes.ofNode
  | _, _, _, _, [] => rfl
  | scope, next, s, last, first :: rest => by
    simp only [stmtsIn, ofNode_stmtsIn scope _ _ _ rest, ofNode_stmtIn scope next s first]

end

/-! ### Both walks are one -/

theorem scopeOf_eq {s : Scopes} {node : NodeId} {scope : ScopeId}
    (h : s.ofNode.get? node = some scope) : s.scopeOf node = scope := by
  rw [Scopes.scopeOf, h]
  rfl

mutual

theorem stmt_eq_stmtIn : ∀ {scope next : ScopeId} {s : Inference} {stmt : Stmt},
    stmt.Placed s.scopes.ofNode scope next → Inference.stmt s stmt = stmtIn scope next s stmt
  | scope, next, s, .define id name ps bodyId body, ⟨hid, hbodyId, hbody⟩ => by
    have hscope := scopeOf_eq hid
    have hbodyScope : (s.add .undefined (some id)).1.scopes.scopeOf bodyId = next :=
      scopeOf_eq hbodyId
    simp only [Inference.stmt, stmtIn, hscope, hbodyScope]
    rw [stmts_eq_stmtsIn]
    simp only [add, define, Scopes.define]
    rw [ofNode_params]
    exact hbody
  | scope, next, s, .assign id name value, hid => by
    simp only [Inference.stmt, stmtIn, scopeOf_eq hid]
  | scope, next, s, .expr e, hid => by
    simp only [Inference.stmt, stmtIn, scopeOf_eq hid]

theorem stmts_eq_stmtsIn : ∀ {scope next : ScopeId} {s : Inference} {last : Option VertexId}
    {ss : List Stmt}, Stmt.PlacedAll s.scopes.ofNode scope next ss →
      stmts s last ss = stmtsIn scope next s last ss
  | _, _, _, _, [], _ => rfl
  | scope, next, s, last, first :: rest, ⟨hfirst, hrest⟩ => by
    simp only [stmts, stmtsIn, stmt_eq_stmtIn hfirst]
    refine stmts_eq_stmtsIn ?_
    rw [ofNode_stmtIn]
    exact hrest

end

/-- What the walk starts from: the built-in functions and the vertex of the program's list. -/
def begin (p : Program) : Inference × VertexId :=
  (start (.ofProgram p)).add .unknown (some p.body.id)

/-- What the walk ends with: the value of the list, which has to be a number, unless the program ends
in a definition. -/
def finish (p : Program) (list : VertexId) (s : Inference) (last : Option VertexId) : Inference :=
  let s := s.flowFrom? last list
  if endsInDefine p.stmts then
    s
  else
    let (s, vertex) := s.add .number (some p.id)
    s.flow list vertex

theorem scopes_start (scopes : Scopes) : (start scopes).scopes = scopes := rfl

/-- If the ids of a program are different, its walk is the one that counts scopes along. -/
theorem ofProgram_eq {p : Program} (h : p.nodeIds.Nodup) :
    ofProgram p =
      finish p (begin p).2 (stmtsIn 0 1 (begin p).1 none p.stmts).1
        (stmtsIn 0 1 (begin p).1 none p.stmts).2 := by
  have hscopes : (begin p).1.scopes = .ofProgram p := by
    simp only [begin, add, scopes_start]
  have hplaced := Scopes.placed_ofProgram h
  rw [← hscopes] at hplaced
  rw [← stmts_eq_stmtsIn hplaced]
  unfold ofProgram finish begin
  generalize start (.ofProgram p) = s
  rfl

end Inference
end Abacus
