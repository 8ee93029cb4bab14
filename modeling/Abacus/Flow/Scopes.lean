import Abacus.Builtin
import Abacus.Flow.Graph
import Abacus.Table

/-!
# Signatures and scopes

The signature of a function is how its calls are drawn into a flow graph: by the vertices of its
parameters and of what it returns.

Every statement list has a scope of its own, and every statement is in the scope of the list that
holds it. Variables are not inherited: a function body sees only its own. Functions are looked up
through the enclosing scopes, innermost first.
-/
namespace Abacus

/-! ## Signatures -/

/-- The vertices of a function in a flow graph: the function itself, its parameters, what it
returns. -/
structure Signature where
  function : VertexId
  params : List VertexId
  returns : VertexId
  deriving DecidableEq

namespace Signature

/-- The signature of a function of the program, of which nothing is known but its parameters. `open`
makes it, and adds the two vertices that are not there yet. -/
def unknown (g : FlowGraph) (params : List VertexId) : FlowGraph × Signature :=
  ((g.add .function none).add .unknown none,
    { function := g.size, params, returns := g.size + 1 })

/-- Adds `count` vertices of one kind that stand for no node. -/
def addParams (g : FlowGraph) (kind : Kind) : (count : Nat) → FlowGraph
  | 0 => g
  | count + 1 => addParams (g.add kind none) kind count

/-- The signature of a built-in function, which takes and returns numbers. Its vertices are numbered
in the order function, parameters, result. -/
def builtin (g : FlowGraph) (b : Builtin) : FlowGraph × Signature :=
  let withParams := addParams (g.add .function none) .number b.arity
  (withParams.add .number none,
    { function := g.size
      params := (List.range b.arity).map fun i => g.size + 1 + i
      returns := g.size + 1 + b.arity })

end Signature

/-! ## Scopes -/

/-- The number of a scope, in order of creation. The scope of the program's own block is zero. -/
abbrev ScopeId := Nat

/-- A `ScopeRecord`: what the names of one statement list mean, as far as the walk has got. -/
structure Scope where
  /-- The enclosing scope, which was created before this one. -/
  parent : Option ScopeId
  locals : Table String VertexId
  functions : Table String Signature

/-- The `Contexts` of the checker: every scope by its number, and where the statements are. -/
structure Scopes where
  scopes : Array Scope
  /-- The scopes of statements and statement lists. -/
  ofNode : Table NodeId ScopeId

namespace Scopes

def empty : Scopes :=
  { scopes := #[], ofNode := {} }

/-- Opens a scope for the statement list with this id. Its number is the number of scopes before. -/
def openScope (s : Scopes) (parent : Option ScopeId) (list : NodeId) : Scopes :=
  { scopes := s.scopes.push { parent, locals := {}, functions := {} }
    ofNode := s.ofNode.insert list s.scopes.size }

/-- Puts a statement into a scope. -/
def place (s : Scopes) (stmt : NodeId) (scope : ScopeId) : Scopes :=
  { s with ofNode := s.ofNode.insert stmt scope }

mutual

/-- Puts a statement into its scope, and opens a scope for the body if it is a definition. -/
def addStmt (scope : ScopeId) (s : Scopes) : Stmt → Scopes
  | .define id _ _ bodyId body =>
    let s := s.place id scope
    addStmts s.scopes.size (s.openScope (some scope) bodyId) body
  | .assign id _ _ => s.place id scope
  | .expr e => s.place e.id scope

/-- Puts statements into their scope, in order: the loop of `stmt_list` in `Contexts`. -/
def addStmts (scope : ScopeId) (s : Scopes) : List Stmt → Scopes
  | [] => s
  | stmt :: rest => addStmts scope (addStmt scope s stmt) rest

end

/-- The scopes of a program, still without variables and functions, by `propagate`. -/
def ofProgram (p : Program) : Scopes :=
  addStmts 0 (empty.openScope none p.body.id) p.stmts

/-- The scope that a statement is in or that a statement list opens. A node that has none is taken
for one at the top level, as by `scope_of`. -/
def scopeOf (s : Scopes) (node : NodeId) : ScopeId :=
  (s.ofNode.get? node).getD 0

/-- What was last assigned to a variable in a scope. Scopes around it are not asked. -/
def local? (s : Scopes) (scope : ScopeId) (name : String) : Option VertexId := do
  (← s.scopes[scope]?).locals.get? name

/-- Puts a vertex under the name of a variable of a scope, by `set_local`. Without such a scope
nothing is put anywhere. -/
def setLocal (s : Scopes) (scope : ScopeId) (name : String) (vertex : VertexId) : Scopes :=
  { s with
    scopes := s.scopes.modify scope fun r => { r with locals := r.locals.insert name vertex } }

/-- Looks a function up in a scope and at most `depth` scopes around it: the loop of `function`,
which goes outwards from parent to parent. -/
def functionIn (s : Scopes) (name : String) : (depth : Nat) → ScopeId → Option Signature
  | 0, _ => none
  | depth + 1, scope => do
    let r ← s.scopes[scope]?
    match r.functions.get? name with
    | some signature => pure signature
    | none => s.functionIn name depth (← r.parent)

/-- What a name means as a function in a scope: the definition in the innermost scope that has one.
-/
def function? (s : Scopes) (scope : ScopeId) (name : String) : Option Signature :=
  s.functionIn name s.scopes.size scope

/-- Puts a signature under the name of a function of a scope. A later definition of the same name
takes its place. -/
def define (s : Scopes) (scope : ScopeId) (name : String) (signature : Signature) : Scopes :=
  { s with
    scopes := s.scopes.modify scope fun r =>
      { r with functions := r.functions.insert name signature } }

end Scopes
end Abacus
