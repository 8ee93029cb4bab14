import Abacus.Syntax.Node

/-!
# Positions in a tree

A position is a list of child numbers that leads from the root of a tree to one of its nodes. Here all
nodes are of one type, whatever they are in the syntax, each with a label, which is all of a node but its
children. Walking to a position goes along the list and not along the tree, so that it needs no mutual
recursion.
-/
namespace Abacus

/-- A node of a syntax tree. An expression that is a statement is one node, not two. -/
inductive Node where
  | program (p : Program)
  | block (b : Block)
  | define (d : Define)
  | assign (id : NodeId) (name : String) (value : Expr)
  | params (ps : ParamList)
  | param (p : Param)
  | expr (e : Expr)

/-- What a node is apart from its children. -/
inductive Label where
  | program (id : NodeId)
  | block (id : NodeId)
  | define (id : NodeId) (name : String)
  | assign (id : NodeId) (name : String)
  | params (id : NodeId)
  | param (id : NodeId) (name : String)
  | number (id : NodeId) (value : Float) (source : Option String)
  | var (id : NodeId) (name : String)
  | binary (id : NodeId) (op : Operator)
  | negate (id : NodeId)
  | call (id : NodeId) (name : String)

def Expr.label : Expr → Label
  | .number id value source => .number id value source
  | .var id name => .var id name
  | .binary id op _ _ => .binary id op
  | .negate id _ => .negate id
  | .call id name _ => .call id name

/-- The operands of an operator, the arguments of a call. -/
def Expr.operands : Expr → List Expr
  | .number _ _ _ => []
  | .var _ _ => []
  | .binary _ _ left right => [left, right]
  | .negate _ operand => [operand]
  | .call _ _ args => args

def Stmt.node : Stmt → Node
  | .define id name params bodyId body =>
    .define { id, name, params, body := { id := bodyId, stmts := body } }
  | .assign id name value => .assign id name value
  | .expr e => .expr e

namespace Node

def label : Node → Label
  | program p => .program p.id
  | block b => .block b.id
  | define d => .define d.id d.name
  | assign id name _ => .assign id name
  | params ps => .params ps.id
  | param p => .param p.id p.name
  | expr e => e.label

def children : Node → List Node
  | program p => [block p.body]
  | block b => b.stmts.map Stmt.node
  | define d => [params d.params, block d.body]
  | assign _ _ value => [expr value]
  | params ps => ps.params.map param
  | param _ => []
  | expr e => e.operands.map expr

/-- The node at a position, if there is one. -/
def at? (n : Node) : List Nat → Option Node
  | [] => some n
  | i :: path => n.children[i]?.bind fun c => c.at? path

theorem at?_cons {n m : Node} {i : Nat} {path : List Nat} :
    n.at? (i :: path) = some m ↔ ∃ c, n.children[i]? = some c ∧ c.at? path = some m :=
  Option.bind_eq_some_iff

theorem at?_cons_of_child {n c : Node} {i : Nat} (h : n.children[i]? = some c) (path : List Nat) :
    n.at? (i :: path) = c.at? path := by
  rw [at?, h, Option.bind_some]

/-! ## Ids -/

def nodeIds : Node → List NodeId
  | program p => p.nodeIds
  | block b => b.nodeIds
  | define d => d.stmt.nodeIds
  | assign id _ value => id :: value.nodeIds
  | params ps => ps.nodeIds
  | param p => [p.id]
  | expr e => e.nodeIds

end Node

def Label.id : Label → NodeId
  | program id | block id | define id _ | assign id _ | params id | param id _ | number id _ _
  | var id _ | binary id _ | negate id | call id _ => id

theorem Expr.label_id (e : Expr) : e.label.id = e.id := by
  cases e <;> rfl

theorem Expr.nodeIds_subset {e : Expr} {es : List Expr} (h : e ∈ es) :
    e.nodeIds ⊆ Expr.nodeIdsAll es := by
  induction es with
  | nil => cases h
  | cons e' rest ih =>
    intro id hid
    rw [Expr.nodeIdsAll]
    rcases List.mem_cons.mp h with rfl | hmem
    · exact List.mem_append_left _ hid
    · exact List.mem_append_right _ (ih hmem hid)

theorem Stmt.nodeIds_node (s : Stmt) : s.node.nodeIds = s.nodeIds := by
  cases s <;> rfl

theorem Stmt.nodeIds_subset {s : Stmt} {ss : List Stmt} (h : s ∈ ss) :
    s.nodeIds ⊆ Stmt.nodeIdsAll ss := by
  induction ss with
  | nil => cases h
  | cons s' rest ih =>
    intro id hid
    rw [Stmt.nodeIdsAll]
    rcases List.mem_cons.mp h with rfl | hmem
    · exact List.mem_append_left _ hid
    · exact List.mem_append_right _ (ih hmem hid)

theorem Expr.nodeIds_eq (e : Expr) : e.nodeIds = e.id :: Expr.nodeIdsAll e.operands := by
  cases e <;> simp [Expr.nodeIds, Expr.id, Expr.operands, Expr.nodeIdsAll]

namespace Node

theorem label_id_mem (n : Node) : n.label.id ∈ n.nodeIds := by
  cases n with
  | expr e =>
    rw [label, e.label_id, nodeIds, e.nodeIds_eq]
    exact List.mem_cons_self
  | _ => exact List.mem_cons_self

theorem nodeIds_child {n c : Node} (h : c ∈ n.children) : c.nodeIds ⊆ n.nodeIds := by
  intro id hid
  cases n with
  | program p =>
    obtain rfl := List.mem_singleton.mp h
    exact List.mem_cons_of_mem _ hid
  | block b =>
    obtain ⟨s, hs, rfl⟩ := List.mem_map.mp h
    rw [s.nodeIds_node] at hid
    exact List.mem_cons_of_mem _ (Stmt.nodeIds_subset hs hid)
  | define d =>
    refine List.mem_cons_of_mem _ (List.mem_append.mpr ?_)
    rcases List.mem_cons.mp h with rfl | h
    · exact .inl hid
    · obtain rfl := List.mem_singleton.mp h
      exact .inr hid
  | assign _ _ value =>
    obtain rfl := List.mem_singleton.mp h
    exact List.mem_cons_of_mem _ hid
  | params ps =>
    obtain ⟨p, hp, rfl⟩ := List.mem_map.mp h
    obtain rfl := List.mem_singleton.mp hid
    exact List.mem_cons_of_mem _ (List.mem_map_of_mem hp)
  | param _ => cases h
  | expr e =>
    obtain ⟨operand, hoperand, rfl⟩ := List.mem_map.mp h
    rw [nodeIds, e.nodeIds_eq]
    exact List.mem_cons_of_mem _ (Expr.nodeIds_subset hoperand hid)

/-- The node at a position has one of the ids of the tree. -/
theorem id_mem_of_at? {n m : Node} {path : List Nat} (h : n.at? path = some m) :
    m.label.id ∈ n.nodeIds := by
  induction path generalizing n with
  | nil =>
    obtain rfl := Option.some.inj h
    exact n.label_id_mem
  | cons i path ih =>
    obtain ⟨c, hc, hm⟩ := at?_cons.mp h
    exact nodeIds_child (List.mem_of_getElem? hc) (ih hm)

end Node
end Abacus
