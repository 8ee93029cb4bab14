import Abacus.Builtin
import Abacus.Syntax.Node
import Mathlib.Data.List.Nodup

/-!
# The names that a program uses

A variable is bound if it is a parameter of the function whose body it stands in or has been assigned
before in that body; the body of a function sees nothing of what is around it. `unbound` lists the
variables that are not. `dangling` lists the names at the top level that nothing stands for: those
variables, and the calls of functions that are neither built in nor defined before. Names come with
the ids of their nodes; `settled` lists the nodes that are left, so that in a program with different
ids no unbound variable is among these (`Program.unbound_disjoint`).
-/
namespace Abacus

/-! ## Names in expressions -/

mutual

def Expr.variables : Expr → List (NodeId × String)
  | .number _ _ _ => []
  | .var id x => [(id, x)]
  | .binary _ _ left right => left.variables ++ right.variables
  | .negate _ operand => operand.variables
  | .call _ _ args => Expr.variablesAll args

def Expr.variablesAll : List Expr → List (NodeId × String)
  | [] => []
  | e :: rest => e.variables ++ Expr.variablesAll rest

end

mutual

/-- The calls of functions that are not built in. -/
def Expr.calls : Expr → List (NodeId × String)
  | .number _ _ _ => []
  | .var _ _ => []
  | .binary _ _ left right => left.calls ++ right.calls
  | .negate _ operand => operand.calls
  | .call id f args =>
    if Builtin.ofName? f = none then (id, f) :: Expr.callsAll args else Expr.callsAll args

def Expr.callsAll : List Expr → List (NodeId × String)
  | [] => []
  | e :: rest => e.calls ++ Expr.callsAll rest

end

/-- The variables that have none of these names. -/
def Expr.unbound (names : List String) (e : Expr) : List (NodeId × String) :=
  e.variables.filter fun use => use.2 ∉ names

/-- The variables that have none of these names and the calls of functions that are none of these. -/
def Expr.dangling (names functions : List String) (e : Expr) : List (NodeId × String) :=
  e.unbound names ++ e.calls.filter fun use => use.2 ∉ functions

mutual

/-- The nodes of an expression but for the variables that have none of these names. -/
def Expr.settled (names : List String) : Expr → List NodeId
  | .number id _ _ => [id]
  | .var id x => if x ∈ names then [id] else []
  | .binary id _ left right => id :: (left.settled names ++ right.settled names)
  | .negate id operand => id :: operand.settled names
  | .call id _ args => id :: Expr.settledAll names args

def Expr.settledAll (names : List String) : List Expr → List NodeId
  | [] => []
  | e :: rest => e.settled names ++ Expr.settledAll names rest

end

/-! ## Names in statements -/

mutual

def Stmt.variables : Stmt → List (NodeId × String)
  | .define _ _ _ _ body => Stmt.variablesAll body
  | .assign _ _ value => value.variables
  | .expr e => e.variables

def Stmt.variablesAll : List Stmt → List (NodeId × String)
  | [] => []
  | s :: rest => s.variables ++ Stmt.variablesAll rest

end

/-- The variables that are bound behind a statement. -/
def Stmt.binds (names : List String) : Stmt → List String
  | .assign _ x _ => x :: names
  | _ => names

/-- The functions that are defined behind a statement. -/
def Stmt.defines (functions : List String) : Stmt → List String
  | .define _ f _ _ _ => f :: functions
  | _ => functions

mutual

/-- The variables that are not bound, bodies of functions included. -/
def Stmt.unbound (names : List String) : Stmt → List (NodeId × String)
  | .define _ _ params _ body => Stmt.unboundAll params.names body
  | .assign _ _ value => value.unbound names
  | .expr e => e.unbound names

def Stmt.unboundAll (names : List String) : List Stmt → List (NodeId × String)
  | [] => []
  | s :: rest => s.unbound names ++ Stmt.unboundAll (s.binds names) rest

end

mutual

/-- The nodes of a statement but for the variables that are not bound. -/
def Stmt.settled (names : List String) : Stmt → List NodeId
  | .define id _ params bodyId body =>
    id :: (params.nodeIds ++ bodyId :: Stmt.settledAll params.names body)
  | .assign id _ value => id :: value.settled names
  | .expr e => e.settled names

def Stmt.settledAll (names : List String) : List Stmt → List NodeId
  | [] => []
  | s :: rest => s.settled names ++ Stmt.settledAll (s.binds names) rest

end

/-- The variables of a statement and the calls of functions that are not built in, but for the bodies
of functions. -/
def Stmt.uses : Stmt → List (NodeId × String)
  | .define _ _ _ _ _ => []
  | .assign _ _ value => value.variables ++ value.calls
  | .expr e => e.variables ++ e.calls

def Stmt.dangling (names functions : List String) : Stmt → List (NodeId × String)
  | .define _ _ _ _ _ => []
  | .assign _ _ value => value.dangling names functions
  | .expr e => e.dangling names functions

def Stmt.danglingAll (names functions : List String) : List Stmt → List (NodeId × String)
  | [] => []
  | s :: rest =>
    s.dangling names functions ++ Stmt.danglingAll (s.binds names) (s.defines functions) rest

def Program.variables (p : Program) : List (NodeId × String) :=
  Stmt.variablesAll p.stmts

namespace Program

/-- The variables of a program that are not bound. -/
def unbound (p : Program) : List (NodeId × String) :=
  Stmt.unboundAll [] p.stmts

/-- The nodes of a program but for the variables that are not bound. -/
def settled (p : Program) : List NodeId :=
  p.id :: p.body.id :: Stmt.settledAll [] p.stmts

/-- The variables outside of all definitions, and the calls of functions that are not built in. -/
def topUses (p : Program) : List (NodeId × String) :=
  p.stmts.flatMap Stmt.uses

/-- The names outside of all definitions that nothing stands for. -/
def dangling (p : Program) : List (NodeId × String) :=
  Stmt.danglingAll [] [] p.stmts

end Program

/-! ## Which names are unbound -/

theorem Expr.mem_unbound {names : List String} {e : Expr} {use : NodeId × String} :
    use ∈ e.unbound names ↔ use ∈ e.variables ∧ use.2 ∉ names := by
  rw [Expr.unbound, List.mem_filter, decide_eq_true_eq]

theorem Expr.mem_dangling {names functions : List String} {e : Expr} {use : NodeId × String} :
    use ∈ e.dangling names functions ↔
      use ∈ e.variables ∧ use.2 ∉ names ∨ use ∈ e.calls ∧ use.2 ∉ functions := by
  rw [Expr.dangling, List.mem_append, Expr.mem_unbound, List.mem_filter, decide_eq_true_eq]

/-- Nothing dangles in an expression if all its names stand for something. -/
theorem Expr.dangling_eq_nil {names functions : List String} {e : Expr}
    (hvariables : ∀ use ∈ e.variables, use.2 ∈ names)
    (hcalls : ∀ use ∈ e.calls, use.2 ∈ functions) : e.dangling names functions = [] := by
  refine List.eq_nil_iff_forall_not_mem.mpr fun use huse => ?_
  rcases Expr.mem_dangling.mp huse with ⟨hmem, hnot⟩ | ⟨hmem, hnot⟩
  · exact hnot (hvariables use hmem)
  · exact hnot (hcalls use hmem)

/-! ## Every node is settled or an unbound variable -/

mutual

theorem Expr.count_nodeIds (names : List String) (id : NodeId) : ∀ e : Expr,
    e.nodeIds.count id = (e.settled names).count id + ((e.unbound names).map Prod.fst).count id
  | .number _ _ _ => rfl
  | .var i x => by
    by_cases hx : x ∈ names <;> simp [Expr.nodeIds, Expr.settled, Expr.unbound, Expr.variables, hx]
  | .binary i op left right => by
    have hleft := Expr.count_nodeIds names id left
    have hright := Expr.count_nodeIds names id right
    simp only [Expr.unbound] at hleft hright
    simp only [Expr.nodeIds, Expr.settled, Expr.unbound, Expr.variables, List.filter_append,
      List.map_append, List.count_append, List.count_cons]
    omega
  | .negate i operand => by
    have hoperand := Expr.count_nodeIds names id operand
    simp only [Expr.unbound] at hoperand
    simp only [Expr.nodeIds, Expr.settled, Expr.unbound, Expr.variables, List.count_cons]
    omega
  | .call i f args => by
    have hargs := Expr.count_nodeIdsAll names id args
    simp only [Expr.nodeIds, Expr.settled, Expr.unbound, Expr.variables, List.count_cons]
    omega

theorem Expr.count_nodeIdsAll (names : List String) (id : NodeId) : ∀ es : List Expr,
    (Expr.nodeIdsAll es).count id = (Expr.settledAll names es).count id +
      (((Expr.variablesAll es).filter fun use => use.2 ∉ names).map Prod.fst).count id
  | [] => rfl
  | e :: rest => by
    have he := Expr.count_nodeIds names id e
    have hrest := Expr.count_nodeIdsAll names id rest
    simp only [Expr.unbound] at he
    simp only [Expr.nodeIdsAll, Expr.settledAll, Expr.variablesAll, List.filter_append,
      List.map_append, List.count_append]
    omega

end

mutual

theorem Stmt.count_nodeIds (id : NodeId) : ∀ (names : List String) (s : Stmt),
    s.nodeIds.count id = (s.settled names).count id + ((s.unbound names).map Prod.fst).count id
  | _, .define i f params bodyId body => by
    have hbody := Stmt.count_nodeIdsAll id params.names body
    simp only [Stmt.nodeIds, Stmt.settled, Stmt.unbound, List.count_append, List.count_cons]
    omega
  | names, .assign i x value => by
    have hvalue := value.count_nodeIds names id
    simp only [Stmt.nodeIds, Stmt.settled, Stmt.unbound, List.count_cons]
    omega
  | names, .expr e => e.count_nodeIds names id

theorem Stmt.count_nodeIdsAll (id : NodeId) : ∀ (names : List String) (ss : List Stmt),
    (Stmt.nodeIdsAll ss).count id = (Stmt.settledAll names ss).count id +
      ((Stmt.unboundAll names ss).map Prod.fst).count id
  | _, [] => rfl
  | names, s :: rest => by
    have hs := Stmt.count_nodeIds id names s
    have hrest := Stmt.count_nodeIdsAll id (s.binds names) rest
    simp only [Stmt.nodeIdsAll, Stmt.settledAll, Stmt.unboundAll, List.map_append,
      List.count_append]
    omega

end

mutual

theorem Stmt.variables_of_unbound {use : NodeId × String} : ∀ {names : List String} {s : Stmt},
    use ∈ s.unbound names → use ∈ s.variables
  | _, .define _ _ _ _ _, h => Stmt.variablesAll_of_unbound h
  | _, .assign _ _ _, h => (Expr.mem_unbound.mp h).1
  | _, .expr _, h => (Expr.mem_unbound.mp h).1

theorem Stmt.variablesAll_of_unbound {use : NodeId × String} : ∀ {names : List String}
    {ss : List Stmt}, use ∈ Stmt.unboundAll names ss → use ∈ Stmt.variablesAll ss
  | _, [], h => h
  | _, s :: rest, h => by
    rcases List.mem_append.mp h with hs | hrest
    · exact List.mem_append_left _ (Stmt.variables_of_unbound hs)
    · exact List.mem_append_right _ (Stmt.variablesAll_of_unbound hrest)

end

namespace Program

variable {p : Program}

theorem variables_of_unbound {use : NodeId × String} (h : use ∈ p.unbound) : use ∈ p.variables :=
  Stmt.variablesAll_of_unbound h

/-- No other node of a program has the id of an unbound variable. -/
theorem unbound_disjoint (h : p.nodeIds.Nodup) {use : NodeId × String} (huse : use ∈ p.unbound) :
    use.1 ∉ p.settled := by
  intro hmem
  have hsettled : 0 < p.settled.count use.1 := List.count_pos_iff.mpr hmem
  have hunbound : 0 < (p.unbound.map Prod.fst).count use.1 :=
    List.count_pos_iff.mpr (List.mem_map_of_mem huse)
  have honce : p.nodeIds.count use.1 ≤ 1 := List.nodup_iff_count_le_one.mp h use.1
  have hcount := Stmt.count_nodeIdsAll use.1 [] p.stmts
  simp only [nodeIds, Block.nodeIds, settled, unbound, List.count_cons] at hsettled hunbound honce
  rw [stmts] at *
  omega

end Program
end Abacus
