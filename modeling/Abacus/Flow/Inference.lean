import Abacus.Flow.Scopes

/-!
# The flow graph of a program

A walk over the tree gives every node its vertex and draws the edges that its evaluation implies.

* A literal is a number. Operators and calls pass their operands into the parameters of a function
  and receive what it returns; a name that means no function receives nothing.
* A variable receives what the last assignment before it in its own statement list holds, or
  nothing.
* An assignment passes its value into a new place for the name; the statement itself is undefined.
* A definition has a signature, known before its body is visited; the statement itself is undefined.
* A statement list receives its last statement. The program has to be a number, unless it ends in a
  definition.
-/
namespace Abacus

/-- A walk under way: the graph so far, what the scopes hold so far, and the signatures of the
built-in functions. -/
structure Inference where
  graph : FlowGraph
  scopes : Scopes
  builtins : Table Builtin Signature

namespace Inference

/-- Adds a vertex and returns its number. -/
def add (s : Inference) (kind : Kind) (node : Option NodeId) : Inference × VertexId :=
  ({ s with graph := s.graph.add kind node }, s.graph.size)

def flow (s : Inference) (lower upper : VertexId) : Inference :=
  { s with graph := s.graph.flow lower upper }

/-- An edge from a vertex, if there is one: a variable that nothing was assigned to has none, and
neither has an empty list. -/
def flowFrom? (s : Inference) (lower : Option VertexId) (upper : VertexId) : Inference :=
  match lower with
  | some lower => s.flow lower upper
  | none => s

/-- Notes which vertex holds the value of a variable in a scope. -/
def setLocal (s : Inference) (scope : ScopeId) (name : String) (vertex : VertexId) : Inference :=
  { s with scopes := s.scopes.setLocal scope name vertex }

/-- The signature of whatever function a name means in a scope, a built-in function before one of
the program. -/
def function? (s : Inference) (scope : ScopeId) (name : String) : Option Signature :=
  match Builtin.ofName? name with
  | some b => s.builtins.get? b
  | none => s.scopes.function? scope name

/-- Passes arguments into parameters, pair by pair, and the result into `result`. Arguments beyond
the parameters go nowhere, and a call of no function draws no edge. -/
def apply (s : Inference) (signature : Option Signature) (args : List VertexId)
    (result : VertexId) : Inference :=
  match signature with
  | none => s
  | some signature =>
    let s := (args.zip signature.params).foldl (fun s (arg, param) => s.flow arg param) s
    s.flow signature.returns result

/-! ## The walk -/

mutual

/-- Adds an expression in a scope and returns its vertex, by `expression`. Operands are added before
what they are operands of. -/
def expr (scope : ScopeId) (s : Inference) : Expr → Inference × VertexId
  | .number id _ _ => s.add .number (some id)
  | .var id name =>
    let (s, vertex) := s.add .unknown (some id)
    (s.flowFrom? (s.scopes.local? scope name) vertex, vertex)
  | .binary id op left right =>
    let (s, left) := expr scope s left
    let (s, right) := expr scope s right
    let (s, vertex) := s.add .unknown (some id)
    (s.apply (s.builtins.get? (.ofOperator op)) [left, right] vertex, vertex)
  | .negate id operand =>
    let (s, operand) := expr scope s operand
    let (s, vertex) := s.add .unknown (some id)
    (s.apply (s.builtins.get? .negate) [operand] vertex, vertex)
  | .call id name args =>
    let (s, args) := exprs scope s args
    let (s, vertex) := s.add .unknown (some id)
    (s.apply (s.function? scope name) args vertex, vertex)

/-- Adds expressions in order and returns their vertices. -/
def exprs (scope : ScopeId) (s : Inference) : List Expr → Inference × List VertexId
  | [] => (s, [])
  | e :: rest =>
    let (s, vertex) := expr scope s e
    let (s, vertices) := exprs scope s rest
    (s, vertex :: vertices)

end

/-- Adds the parameters of a function as variables of its body, in order. Of two of one name the
body sees the later one. -/
def params (body : ScopeId) (s : Inference) : List Param → Inference × List VertexId
  | [] => (s, [])
  | p :: rest =>
    let (s, vertex) := s.add .unknown (some p.id)
    let (s, vertices) := params body (s.setLocal body p.name vertex) rest
    (s, vertex :: vertices)

/-- Gives a function its signature, in the scope in which it is defined. -/
def define (s : Inference) (scope : ScopeId) (name : String) (params : List VertexId) :
    Inference × Signature :=
  let (graph, signature) := Signature.unknown s.graph params
  ({ s with graph, scopes := s.scopes.define scope name signature }, signature)

mutual

/-- Adds a statement and returns its vertex, by `statement`, `define` and `stmt_list`. The name of a
function is known in its own body, that of a variable only behind its assignment. -/
def stmt (s : Inference) : Stmt → Inference × VertexId
  | .define id name ps bodyId body =>
    let scope := s.scopes.scopeOf id
    let (s, vertex) := s.add .undefined (some id)
    let (s, ps) := params (s.scopes.scopeOf bodyId) s ps.params
    let (s, signature) := s.define scope name ps
    let (s, list) := s.add .unknown (some bodyId)
    let (s, last) := stmts s none body
    (((s.flowFrom? last list).flow list signature.returns), vertex)
  | .assign id name value =>
    let scope := s.scopes.scopeOf id
    let (s, vertex) := s.add .undefined (some id)
    let (s, value) := expr scope s value
    let (s, target) := s.add .unknown none
    ((s.flow value target).setLocal scope name target, vertex)
  | .expr e => expr (s.scopes.scopeOf e.id) s e

/-- Adds statements in order and returns the vertex of the last one, or `last` if there is none. -/
def stmts (s : Inference) (last : Option VertexId) : List Stmt → Inference × Option VertexId
  | [] => (s, last)
  | first :: rest =>
    let (s, vertex) := stmt s first
    stmts s (some vertex) rest

end

/-- The built-in functions with their signatures, which are the first vertices of every graph. -/
def start (scopes : Scopes) : Inference :=
  let empty := { graph := .empty, scopes, builtins := {} }
  Builtin.all.foldl (fun s b =>
    let (graph, signature) := Signature.builtin s.graph b
    { s with graph, builtins := s.builtins.insert b signature }) empty

/-- Is the last statement a definition? Then the program has no value to ask for. -/
def endsInDefine (stmts : List Stmt) : Bool :=
  (stmts.getLast?.bind Stmt.define?).isSome

/-- The whole walk, by `program`: the block, and behind it a vertex for the program itself, which
has to be a number. -/
def ofProgram (p : Program) : Inference :=
  let (s, list) := (start (.ofProgram p)).add .unknown (some p.body.id)
  let (s, last) := stmts s none p.stmts
  let s := s.flowFrom? last list
  if endsInDefine p.stmts then
    s
  else
    let (s, vertex) := s.add .number (some p.id)
    s.flow list vertex

end Inference

namespace Program

/-- The flow graph of a program, as `build` makes it. -/
def flowGraph (p : Program) : FlowGraph :=
  (Inference.ofProgram p).graph

/-- Where values of one kind flow into places of another, by `check`. There are none if the program
is in order. -/
def mismatches (p : Program) : List Mismatch :=
  p.flowGraph.mismatches

end Program
end Abacus
