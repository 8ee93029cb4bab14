import Abacus.Syntax.Basic

/-!
# Flow graphs

A vertex is a place that holds a value of some kind; an edge from `a` to `b` says that the value at
`a` flows into `b`. A vertex of unknown kind lets through whatever flows in. A concrete vertex
clashes with each concrete vertex of another kind that it reaches through vertices of unknown kind.

`clashes` searches level by level from every concrete vertex. A level holds the successors of the
unknown vertices that the level before reached for the first time, in the order of the edges, so the
clashes of one vertex come in the order of their distance.
-/
namespace Abacus

/-- What is known about the value that flows through a place of a program. -/
inductive Kind where
  /-- Nothing is known; takes on whatever flows in. -/
  | unknown
  | number
  /-- What a statement without a value gives, such as a definition. -/
  | undefined
  | function
  deriving DecidableEq

/-- The name of a kind in messages, by `pretty`. -/
def Kind.name : Kind → String
  | unknown => "Open"
  | number => "Number"
  | undefined => "Undefined"
  | function => "Function"

/-- The number of a vertex, in order of creation. -/
abbrev VertexId := Nat

/-- A place of a program, with what is known of its value. Its edges are kept in the graph. -/
structure Vertex where
  kind : Kind
  /-- The node of a tree that the vertex stands for, if any. -/
  node : Option NodeId
  deriving DecidableEq

/-- A `TypeGraph`: the vertices by their numbers, and where values flow between them. -/
structure FlowGraph where
  vertices : Array Vertex
  /-- Where values flow, oldest edge first. -/
  edges : Array (VertexId × VertexId)

/-- A value of kind `expected` reaches a place of kind `found`, which belongs to `node` if it
belongs to any. -/
structure Mismatch where
  expected : Kind
  found : Kind
  node : Option NodeId
  deriving DecidableEq

/-- The text of a mismatch, by its `Display`; `type_check` gives one for each. -/
def Mismatch.message (m : Mismatch) : String :=
  "Expected " ++ m.expected.name ++ " got " ++ m.found.name

namespace FlowGraph

def empty : FlowGraph :=
  { vertices := #[], edges := #[] }

/-- How many vertices there are, which is also the number of the next one; it is `len`. -/
def size (g : FlowGraph) : Nat :=
  g.vertices.size

/-- The graph with one more vertex, whose number is the size of the graph before. It is `push`, and
with it `vertex` and `node`. -/
def add (g : FlowGraph) (kind : Kind) (node : Option NodeId) : FlowGraph :=
  { g with vertices := g.vertices.push { kind, node } }

/-- The graph with one more edge, by `flow`. The same edge may be there twice. -/
def flow (g : FlowGraph) (lower upper : VertexId) : FlowGraph :=
  { g with edges := g.edges.push (lower, upper) }

/-- The kind of a vertex, if there is one of this number. -/
def kind? (g : FlowGraph) (v : VertexId) : Option Kind :=
  g.vertices[v]?.map Vertex.kind

/-- Where the value at a vertex flows, in the order of the edges; each vertex of the checker has a
list of these. -/
def successors (g : FlowGraph) (v : VertexId) : List VertexId :=
  g.edges.toList.filterMap fun edge => if edge.1 = v then some edge.2 else none

/-! ## The search -/

/-- A search under way: the vertices that need no second visit, the vertices that clash, and the
level to visit next. -/
structure Search where
  visited : List VertexId
  clashing : List VertexId
  level : List VertexId

/-- Visits one vertex in a search from a vertex of this kind, as the body of the loop in
`mismatches` does with the next one of its queue. Only behind vertices of unknown kind does the
search go on. -/
def visit (g : FlowGraph) (kind : Kind) (s : Search) (v : VertexId) : Search :=
  if v ∈ s.visited then
    s
  else
    let s := { s with visited := v :: s.visited }
    match g.kind? v with
    | none => s
    | some .unknown => { s with level := s.level ++ g.successors v }
    | some found => if found = kind then s else { s with clashing := s.clashing ++ [v] }

/-- Visits at most `turns` levels, all vertices of one before those of the next. This is the order
of the queue in `mismatches`. -/
def search (g : FlowGraph) (kind : Kind) : (turns : Nat) → Search → Search
  | 0, s => s
  | turns + 1, s =>
    match s.level with
    | [] => s
    | level => g.search kind turns (level.foldl (g.visit kind) { s with level := [] })

/-- The vertices that clash with a vertex. Every level but the last visits a vertex for the first
time, so there are no more levels than vertices and one. -/
def clashes (g : FlowGraph) (source : VertexId) : List VertexId :=
  match g.kind? source with
  | none | some .unknown => []
  | some kind =>
    let start := { visited := [source], clashing := [], level := g.successors source }
    (g.search kind (g.size + 1) start).clashing

/-- The mismatch of two vertices, if both are there. The node is that of the vertex that was
reached. -/
def mismatch? (g : FlowGraph) (source target : VertexId) : Option Mismatch := do
  let lower ← g.vertices[source]?
  let upper ← g.vertices[target]?
  pure { expected := lower.kind, found := upper.kind, node := upper.node }

/-- All mismatches, by the vertex that they start from, in the order of the vertices: what
`mismatches` collects. -/
def mismatches (g : FlowGraph) : List Mismatch :=
  (List.range g.size).flatMap fun source => (g.clashes source).filterMap (g.mismatch? source)

end FlowGraph
end Abacus
