import Mathlib.Algebra.GroupWithZero.Nat
import Mathlib.Data.List.Nodup
import Abacus.Proofs.Flow.Edges

/-!
# The vertices of a flow graph

A walk makes its vertices in an order that the tree alone decides: `Expr.vertices` and `Stmt.vertices`
list them, and a walk adds just these (`Inference.made_expr`, `Inference.made_stmt`). So the vertices of
the graph of a program are known in full (`Program.vertices_flowGraph`), and with them which nodes have
one (`Program.nodes_flowGraph`), which is all nodes but parameter lists, and the program itself if it ends
in a definition, and how many vertices stand for no node (`Program.nodeless_flowGraph`).
-/
namespace Abacus

/-! ## The vertices of a tree -/

mutual

/-- The vertices of an expression in order of creation, operands first. -/
def Expr.vertices : Expr → List Vertex
  | .number id _ _ => [{ kind := .number, node := some id }]
  | .var id _ => [{ kind := .unknown, node := some id }]
  | .binary id _ left right =>
    left.vertices ++ (right.vertices ++ [{ kind := .unknown, node := some id }])
  | .negate id operand => operand.vertices ++ [{ kind := .unknown, node := some id }]
  | .call id _ args => Expr.verticesAll args ++ [{ kind := .unknown, node := some id }]

def Expr.verticesAll : List Expr → List Vertex
  | [] => []
  | e :: rest => e.vertices ++ Expr.verticesAll rest

end

def Param.vertex (p : Param) : Vertex :=
  { kind := .unknown, node := some p.id }

mutual

/-- The vertices of a statement in order of creation. A definition has the function and what it returns
besides its nodes, an assignment the place of its variable. -/
def Stmt.vertices : Stmt → List Vertex
  | .define id _ ps bodyId body =>
    { kind := .undefined, node := some id } :: (ps.params.map Param.vertex ++
      { kind := .function, node := none } :: { kind := .unknown, node := none } ::
        { kind := .unknown, node := some bodyId } :: Stmt.verticesAll body)
  | .assign id _ value =>
    { kind := .undefined, node := some id } :: (value.vertices ++
      [{ kind := .unknown, node := none }])
  | .expr e => e.vertices

def Stmt.verticesAll : List Stmt → List Vertex
  | [] => []
  | s :: rest => s.vertices ++ Stmt.verticesAll rest

end

/-- The vertices of the signature of a built-in function. -/
def Builtin.vertices (b : Builtin) : List Vertex :=
  { kind := .function, node := none } ::
    List.replicate (b.arity + 1) { kind := .number, node := none }

/-- The vertices of a program in order of creation. -/
def Program.vertices (p : Program) : List Vertex :=
  Builtin.all.flatMap Builtin.vertices ++ { kind := .unknown, node := some p.body.id } ::
    (Stmt.verticesAll p.stmts ++
      if Inference.endsInDefine p.stmts then [] else [{ kind := .number, node := some p.id }])

/-! ## What a walk adds -/

namespace Inference

/-- The vertices made so far. -/
def made (s : Inference) : List Vertex :=
  s.graph.vertices.toList

@[simp]
theorem made_add (s : Inference) (kind : Kind) (node : Option NodeId) :
    (s.add kind node).1.made = s.made ++ [{ kind := kind, node := node }] :=
  Array.toList_push

@[simp]
theorem made_flow (s : Inference) (lower upper : VertexId) : (s.flow lower upper).made = s.made :=
  rfl

@[simp]
theorem made_flowFrom? (s : Inference) (lower : Option VertexId) (upper : VertexId) :
    (s.flowFrom? lower upper).made = s.made := by
  cases lower <;> rfl

@[simp]
theorem made_setLocal (s : Inference) (scope : ScopeId) (x : String) (v : VertexId) :
    (s.setLocal scope x v).made = s.made :=
  rfl

theorem graph_flowAll (pairs : List (VertexId × VertexId)) (s : Inference) :
    (pairs.foldl (fun s (arg, param) => s.flow arg param) s).graph.vertices = s.graph.vertices := by
  induction pairs generalizing s with
  | nil => rfl
  | cons pair rest ih => exact ih (s.flow pair.1 pair.2)

theorem vertices_apply (s : Inference) (signature : Option Signature) (args : List VertexId)
    (result : VertexId) : (s.apply signature args result).graph.vertices = s.graph.vertices := by
  cases signature with
  | none => rfl
  | some signature => exact graph_flowAll _ s

@[simp]
theorem made_apply (s : Inference) (signature : Option Signature) (args : List VertexId)
    (result : VertexId) : (s.apply signature args result).made = s.made :=
  congrArg Array.toList (s.vertices_apply signature args result)

@[simp]
theorem made_define (s : Inference) (scope : ScopeId) (f : String) (ps : List VertexId) :
    (s.define scope f ps).1.made =
      s.made ++ [{ kind := .function, node := none }, { kind := .unknown, node := none }] := by
  change (((s.add .function none).1.add .unknown none).1).made = _
  rw [made_add, made_add, List.append_assoc]
  rfl

mutual

theorem made_expr (scope : ScopeId) : ∀ (s : Inference) (e : Expr),
    (expr scope s e).1.made = s.made ++ e.vertices
  | s, .number id _ _ => made_add s .number (some id)
  | s, .var id x => by simp only [expr, made_flowFrom?, made_add, Expr.vertices]
  | s, .binary id op left right => by
    simp only [expr, made_apply, made_add, made_expr scope _ right, made_expr scope s left,
      Expr.vertices, List.append_assoc]
  | s, .negate id operand => by
    simp only [expr, made_apply, made_add, made_expr scope s operand, Expr.vertices,
      List.append_assoc]
  | s, .call id f args => by
    simp only [expr, made_apply, made_add, made_exprs scope s args, Expr.vertices,
      List.append_assoc]

theorem made_exprs (scope : ScopeId) : ∀ (s : Inference) (es : List Expr),
    (exprs scope s es).1.made = s.made ++ Expr.verticesAll es
  | s, [] => by simp only [exprs, Expr.verticesAll, List.append_nil]
  | s, e :: rest => by
    simp only [exprs, made_exprs scope _ rest, made_expr scope s e, Expr.verticesAll,
      List.append_assoc]

end

theorem made_params (body : ScopeId) : ∀ (s : Inference) (ps : List Param),
    (params body s ps).1.made = s.made ++ ps.map Param.vertex
  | s, [] => by simp only [params, List.map_nil, List.append_nil]
  | s, p :: rest => by
    simp only [params, made_params body _ rest, made_setLocal, made_add, List.map_cons,
      List.append_assoc, List.singleton_append, Param.vertex]

mutual

theorem made_stmt : ∀ (s : Inference) (st : Stmt), (stmt s st).1.made = s.made ++ st.vertices
  | s, .define id f ps bodyId body => by
    simp only [stmt, made_flow, made_flowFrom?, made_stmts _ none body, made_add, made_define,
      made_params, Stmt.vertices, List.append_assoc, List.cons_append, List.nil_append]
  | s, .assign id x value => by
    simp only [stmt, made_setLocal, made_flow, made_add, made_expr, Stmt.vertices,
      List.append_assoc, List.cons_append, List.nil_append]
  | s, .expr e => made_expr _ s e

theorem made_stmts : ∀ (s : Inference) (last : Option VertexId) (ss : List Stmt),
    (stmts s last ss).1.made = s.made ++ Stmt.verticesAll ss
  | s, _, [] => by simp only [stmts, Stmt.verticesAll, List.append_nil]
  | s, _, first :: rest => by
    simp only [stmts, made_stmts _ _ rest, made_stmt s first, Stmt.verticesAll, List.append_assoc]

end

theorem made_declare (s : Inference) (b : Builtin) :
    (s.declare b).made = s.made ++ b.vertices := by
  change (Signature.builtin s.graph b).1.vertices.toList = _
  rw [Signature.vertices_builtin, Array.toList_append, Array.toList_append, Array.toList_replicate]
  rfl

theorem made_declareAll (bs : List Builtin) (s : Inference) :
    (bs.foldl declare s).made = s.made ++ bs.flatMap Builtin.vertices := by
  induction bs generalizing s with
  | nil => exact (List.append_nil _).symm
  | cons b bs ih => rw [List.foldl_cons, ih, made_declare, List.flatMap_cons, List.append_assoc]

theorem made_start (scopes : Scopes) : (start scopes).made = Builtin.all.flatMap Builtin.vertices := by
  rw [start_eq_foldl, made_declareAll]
  rfl

end Inference

/-- The graph of a program has the vertices of its tree, in their order. -/
theorem Program.vertices_flowGraph (p : Program) : p.flowGraph.vertices.toList = p.vertices := by
  change (Inference.ofProgram p).made = p.vertices
  unfold Inference.ofProgram Program.vertices
  dsimp only
  split
  · rw [Inference.made_flowFrom?, Inference.made_stmts, Inference.made_add, Inference.made_start,
      List.append_nil, List.append_assoc]
    rfl
  · rw [Inference.made_flow, Inference.made_add, Inference.made_flowFrom?, Inference.made_stmts,
      Inference.made_add, Inference.made_start, List.append_assoc, List.append_assoc]
    rfl

/-! ## Which nodes have a vertex -/

mutual

/-- The nodes of a statement but for parameter lists. -/
def Stmt.owners : Stmt → List NodeId
  | .define id _ ps bodyId body => id :: (ps.params.map Param.id ++ bodyId :: Stmt.ownersAll body)
  | .assign id _ value => id :: value.nodeIds
  | .expr e => e.nodeIds

def Stmt.ownersAll : List Stmt → List NodeId
  | [] => []
  | s :: rest => s.owners ++ Stmt.ownersAll rest

end

mutual

def Stmt.paramLists : Stmt → List NodeId
  | .define _ _ ps _ body => ps.id :: Stmt.paramListsAll body
  | .assign _ _ _ => []
  | .expr _ => []

def Stmt.paramListsAll : List Stmt → List NodeId
  | [] => []
  | s :: rest => s.paramLists ++ Stmt.paramListsAll rest

end

mutual

/-- How many assignments there are in a statement. -/
def Stmt.assignCount : Stmt → Nat
  | .define _ _ _ _ body => Stmt.assignCountAll body
  | .assign _ _ _ => 1
  | .expr _ => 0

def Stmt.assignCountAll : List Stmt → Nat
  | [] => 0
  | s :: rest => s.assignCount + Stmt.assignCountAll rest

end

mutual

theorem Stmt.nodeIds_perm : ∀ s : Stmt, s.nodeIds.Perm (s.owners ++ s.paramLists)
  | .define id _ ps bodyId body => by
    have hbody := Stmt.nodeIdsAll_perm body
    rw [List.perm_iff_count] at hbody ⊢
    intro i
    have hcount := hbody i
    simp only [nodeIds, ParamList.nodeIds, owners, paramLists, List.count_cons, List.count_append]
      at hcount ⊢
    omega
  | .assign _ _ _ => by rw [paramLists, List.append_nil]; exact .refl _
  | .expr _ => by rw [paramLists, List.append_nil]; exact .refl _

theorem Stmt.nodeIdsAll_perm : ∀ ss : List Stmt,
    (Stmt.nodeIdsAll ss).Perm (Stmt.ownersAll ss ++ Stmt.paramListsAll ss)
  | [] => .nil
  | s :: rest => by
    have hs := s.nodeIds_perm
    have hrest := Stmt.nodeIdsAll_perm rest
    rw [List.perm_iff_count] at hs hrest ⊢
    intro i
    have hcount := hs i
    have hcountRest := hrest i
    simp only [nodeIdsAll, ownersAll, paramListsAll, List.count_append] at hcount hcountRest ⊢
    omega

end

mutual

theorem Expr.vertices_nodes : ∀ e : Expr, (e.vertices.filterMap Vertex.node).Perm e.nodeIds
  | .number id _ _ => .refl _
  | .var id _ => .refl _
  | .binary id _ left right => by
    simp only [vertices, nodeIds, List.filterMap_append]
    rw [← List.append_assoc]
    exact (List.perm_append_singleton id _).trans
      (.cons id (left.vertices_nodes.append right.vertices_nodes))
  | .negate id operand => by
    simp only [vertices, nodeIds, List.filterMap_append]
    exact (List.perm_append_singleton id _).trans (.cons id operand.vertices_nodes)
  | .call id _ args => by
    simp only [vertices, nodeIds, List.filterMap_append]
    exact (List.perm_append_singleton id _).trans (.cons id (Expr.verticesAll_nodes args))

theorem Expr.verticesAll_nodes : ∀ es : List Expr,
    ((Expr.verticesAll es).filterMap Vertex.node).Perm (Expr.nodeIdsAll es)
  | [] => .nil
  | e :: rest => by
    simp only [verticesAll, nodeIdsAll, List.filterMap_append]
    exact e.vertices_nodes.append (Expr.verticesAll_nodes rest)

end

theorem Param.vertices_nodes (ps : List Param) :
    (ps.map Param.vertex).filterMap Vertex.node = ps.map Param.id := by
  rw [List.filterMap_map, ← List.filterMap_eq_map]
  rfl

mutual

theorem Stmt.vertices_nodes : ∀ s : Stmt, (s.vertices.filterMap Vertex.node).Perm s.owners
  | .define id _ ps bodyId body => by
    simp only [vertices, owners, List.filterMap_append, List.filterMap_cons, Param.vertices_nodes]
    exact .cons id (.append_left _ (.cons bodyId (Stmt.verticesAll_nodes body)))
  | .assign id _ value => by
    simp only [vertices, owners, List.filterMap_append, List.filterMap_cons, List.filterMap_nil,
      List.append_nil]
    exact .cons id value.vertices_nodes
  | .expr e => e.vertices_nodes

theorem Stmt.verticesAll_nodes : ∀ ss : List Stmt,
    ((Stmt.verticesAll ss).filterMap Vertex.node).Perm (Stmt.ownersAll ss)
  | [] => .nil
  | s :: rest => by
    simp only [verticesAll, ownersAll, List.filterMap_append]
    exact s.vertices_nodes.append (Stmt.verticesAll_nodes rest)

end

/-! ### The vertices of no node -/

/-- The vertex stands for no node. -/
def Vertex.nodeless (r : Vertex) : Bool :=
  r.node.isNone

theorem Vertex.nodeless_none (kind : Kind) : Vertex.nodeless { kind, node := none } = true :=
  rfl

theorem Vertex.nodeless_some (kind : Kind) (id : NodeId) :
    Vertex.nodeless { kind, node := some id } = false :=
  rfl

mutual

theorem Expr.nodeless_vertices : ∀ e : Expr, e.vertices.countP Vertex.nodeless = 0
  | .number _ _ _ => rfl
  | .var _ _ => rfl
  | .binary _ _ left right => by
    rw [vertices, List.countP_append, List.countP_append, left.nodeless_vertices,
      right.nodeless_vertices]
    rfl
  | .negate _ operand => by
    rw [vertices, List.countP_append, operand.nodeless_vertices]
    rfl
  | .call _ _ args => by
    rw [vertices, List.countP_append, Expr.nodeless_verticesAll args]
    rfl

theorem Expr.nodeless_verticesAll : ∀ es : List Expr,
    (Expr.verticesAll es).countP Vertex.nodeless = 0
  | [] => rfl
  | e :: rest => by
    rw [verticesAll, List.countP_append, e.nodeless_vertices, Expr.nodeless_verticesAll rest]

end

theorem Param.nodeless_vertices (ps : List Param) :
    (ps.map Param.vertex).countP Vertex.nodeless = 0 := by
  rw [List.countP_map]
  exact List.countP_eq_zero.mpr fun p _ => Bool.false_ne_true

mutual

/-- One for each assignment and two for each definition. -/
theorem Stmt.nodeless_vertices : ∀ s : Stmt,
    s.vertices.countP Vertex.nodeless = s.assignCount + 2 * s.scopeCount
  | .define id _ ps bodyId body => by
    simp only [vertices, assignCount, scopeCount, List.countP_cons, List.countP_append,
      Param.nodeless_vertices, Stmt.nodeless_verticesAll body, Vertex.nodeless_none,
      Vertex.nodeless_some, if_true, Bool.false_eq_true, if_false]
    omega
  | .assign _ _ value => by
    simp only [vertices, assignCount, scopeCount, List.countP_cons, List.countP_append,
      value.nodeless_vertices]
    rfl
  | .expr e => e.nodeless_vertices

theorem Stmt.nodeless_verticesAll : ∀ ss : List Stmt,
    (Stmt.verticesAll ss).countP Vertex.nodeless =
      Stmt.assignCountAll ss + 2 * Stmt.scopeCountAll ss
  | [] => rfl
  | s :: rest => by
    rw [verticesAll, List.countP_append, s.nodeless_vertices, Stmt.nodeless_verticesAll rest,
      assignCountAll, scopeCountAll]
    omega

end

theorem Builtin.nodeless_vertices (b : Builtin) :
    b.vertices.countP Vertex.nodeless = b.arity + 2 := by
  rw [vertices, List.countP_cons, List.countP_replicate]
  rfl

/-! ## The vertices of a program -/

namespace FlowGraph

variable {g : FlowGraph} {id : NodeId}

/-- The node that a vertex stands for, if there is such a vertex and it stands for one. -/
def node? (g : FlowGraph) (v : VertexId) : Option NodeId :=
  g.vertices[v]?.bind Vertex.node

/-- The nodes that vertices stand for, in order of creation. -/
def nodes (g : FlowGraph) : List NodeId :=
  g.vertices.toList.filterMap Vertex.node

theorem mem_nodes : id ∈ g.nodes ↔ ∃ v, g.node? v = some id := by
  simp only [nodes, node?, List.mem_filterMap, Option.bind_eq_some_iff]
  constructor
  · rintro ⟨r, hmem, hr⟩
    obtain ⟨v, hv⟩ := List.mem_iff_getElem?.mp hmem
    exact ⟨v, r, Array.getElem?_toList ▸ hv, hr⟩
  · rintro ⟨v, r, hv, hr⟩
    exact ⟨r, List.mem_iff_getElem?.mpr ⟨v, Array.getElem?_toList.trans hv⟩, hr⟩

/-- If no node is there twice, a node that is there has one vertex. -/
theorem existsUnique_node? (h : g.nodes.Nodup) (hmem : id ∈ g.nodes) :
    ∃! v, g.node? v = some id := by
  obtain ⟨v, hv⟩ := mem_nodes.mp hmem
  refine ⟨v, hv, fun w hw => ?_⟩
  obtain ⟨r, hr, hid⟩ := Option.bind_eq_some_iff.mp hv
  obtain ⟨r', hr', hid'⟩ := Option.bind_eq_some_iff.mp hw
  obtain ⟨hvlt, rfl⟩ := Array.getElem?_eq_some_iff.mp hr
  obtain ⟨hwlt, rfl⟩ := Array.getElem?_eq_some_iff.mp hr'
  have hpairs := List.pairwise_iff_getElem.mp (List.pairwise_filterMap.mp h)
  rcases Nat.lt_trichotomy w v with hlt | heq | hlt
  · exact absurd rfl (hpairs w v hwlt hvlt hlt id hid' id hid)
  · exact heq
  · exact absurd rfl (hpairs v w hvlt hwlt hlt id hid id hid')

end FlowGraph

namespace Program

variable {p : Program}

/-- The nodes that have a vertex. -/
theorem nodes_flowGraph (p : Program) :
    p.flowGraph.nodes.Perm (p.body.id :: (Stmt.ownersAll p.stmts ++
      if Inference.endsInDefine p.stmts then [] else [p.id])) := by
  have hbuiltins : (Builtin.all.flatMap Builtin.vertices).filterMap Vertex.node = [] := rfl
  rw [FlowGraph.nodes, vertices_flowGraph, vertices, List.filterMap_append, hbuiltins, List.nil_append,
    List.filterMap_cons, List.filterMap_append]
  refine .cons p.body.id ((Stmt.verticesAll_nodes p.stmts).append ?_)
  split <;> exact .refl _

theorem mem_nodes_flowGraph {id : NodeId} : id ∈ p.flowGraph.nodes ↔
    id ∈ p.body.id :: Stmt.ownersAll p.stmts ∨ ¬ Inference.endsInDefine p.stmts ∧ id = p.id := by
  rw [p.nodes_flowGraph.mem_iff, List.mem_cons, List.mem_append, List.mem_cons, or_assoc]
  split
  next hend => simp [hend]
  next hend => simp [hend]

/-- The nodes of a program are itself, its list, the parameter lists and the others. -/
theorem nodeIds_perm (p : Program) :
    p.nodeIds.Perm (p.id :: p.body.id :: (Stmt.ownersAll p.stmts ++ Stmt.paramListsAll p.stmts)) :=
  .cons p.id (.cons p.body.id (Stmt.nodeIdsAll_perm p.stmts))

theorem nodup_nodes (h : p.nodeIds.Nodup) : p.flowGraph.nodes.Nodup := by
  rw [p.nodes_flowGraph.nodup_iff]
  obtain ⟨hid, hrest⟩ := List.nodup_cons.mp (p.nodeIds_perm.nodup_iff.mp h)
  rw [List.mem_cons, List.mem_append, not_or, not_or] at hid
  obtain ⟨hbody, hrest⟩ := List.nodup_cons.mp hrest
  obtain ⟨hne, howners, -⟩ := hid
  rw [List.mem_append, not_or] at hbody
  rw [List.nodup_cons, List.mem_append, not_or]
  split
  · rw [List.append_nil]
    exact ⟨⟨hbody.1, List.not_mem_nil⟩, (List.nodup_append.mp hrest).1⟩
  · refine ⟨⟨hbody.1, fun hmem => hne (List.mem_singleton.mp hmem).symm⟩, ?_⟩
    rw [List.nodup_append]
    refine ⟨(List.nodup_append.mp hrest).1, List.nodup_singleton _, fun i hi j hj heq => ?_⟩
    rw [heq, List.mem_singleton.mp hj] at hi
    exact howners hi

theorem nodeless_flowGraph (p : Program) :
    p.flowGraph.vertices.toList.countP Vertex.nodeless =
      (Builtin.all.map fun b => b.arity + 2).sum + Stmt.assignCountAll p.stmts +
        2 * Stmt.scopeCountAll p.stmts := by
  have hbuiltins : (Builtin.all.flatMap Builtin.vertices).countP Vertex.nodeless =
      (Builtin.all.map fun b => b.arity + 2).sum := by
    rw [List.countP_flatMap]
    exact congrArg List.sum (List.map_congr_left fun b _ => b.nodeless_vertices)
  have hend : (if Inference.endsInDefine p.stmts then [] else
      [({ kind := .number, node := some p.id } : Vertex)]).countP Vertex.nodeless = 0 := by
    split <;> rfl
  rw [vertices_flowGraph, vertices, List.countP_append, hbuiltins, List.countP_cons,
    List.countP_append, hend, Stmt.nodeless_verticesAll]
  simp only [Vertex.nodeless_some, Bool.false_eq_true, if_false]
  omega

end Program
end Abacus
