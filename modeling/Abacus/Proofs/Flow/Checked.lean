import Abacus.Proofs.Flow.Coverage
import Abacus.Proofs.Flow.Search

/-!
# Accesses to a flow graph

A walk draws edges between vertices whose numbers it has from earlier, and a search follows edges to
vertices that it then looks up. `Inference.Checked.ofProgram` is the walk and `FlowGraph.Checked.mismatches`
the search with a test before each access; they have no result once a vertex is missing. Both always have
one, and it is that of the walk and the search without tests (`Inference.checked_ofProgram`,
`FlowGraph.checked_mismatches`): what a walk knows of variables and functions are numbers of vertices
that are there (`Inference.InRange`).
-/
namespace Abacus

namespace Inference.Checked

/-! ## The walk with its tests -/

def flow (s : Inference) (lower upper : VertexId) : Option Inference :=
  if lower < s.graph.size ∧ upper < s.graph.size then some (s.flow lower upper) else none

def flowFrom? (s : Inference) (lower : Option VertexId) (upper : VertexId) : Option Inference :=
  match lower with
  | some lower => flow s lower upper
  | none => some s

def apply (s : Inference) (signature : Option Signature) (args : List VertexId)
    (result : VertexId) : Option Inference :=
  match signature with
  | none => some s
  | some signature => do
    let s ← (args.zip signature.params).foldlM (fun s pair => flow s pair.1 pair.2) s
    flow s signature.returns result

mutual

def expr (scope : ScopeId) (s : Inference) : Expr → Option (Inference × VertexId)
  | .number id _ _ => some (s.add .number (some id))
  | .var id name => do
    let (s, vertex) := s.add .unknown (some id)
    let s ← flowFrom? s (s.scopes.local? scope name) vertex
    pure (s, vertex)
  | .binary id op left right => do
    let (s, left) ← expr scope s left
    let (s, right) ← expr scope s right
    let (s, vertex) := s.add .unknown (some id)
    let s ← apply s (s.builtins.get? (.ofOperator op)) [left, right] vertex
    pure (s, vertex)
  | .negate id operand => do
    let (s, operand) ← expr scope s operand
    let (s, vertex) := s.add .unknown (some id)
    let s ← apply s (s.builtins.get? .negate) [operand] vertex
    pure (s, vertex)
  | .call id name args => do
    let (s, args) ← exprs scope s args
    let (s, vertex) := s.add .unknown (some id)
    let s ← apply s (s.function? scope name) args vertex
    pure (s, vertex)

def exprs (scope : ScopeId) (s : Inference) : List Expr → Option (Inference × List VertexId)
  | [] => some (s, [])
  | e :: rest => do
    let (s, vertex) ← expr scope s e
    let (s, vertices) ← exprs scope s rest
    pure (s, vertex :: vertices)

end

mutual

def stmt (s : Inference) : Stmt → Option (Inference × VertexId)
  | .define id name ps bodyId body => do
    let scope := s.scopes.scopeOf id
    let (s, vertex) := s.add .undefined (some id)
    let (s, ps) := params (s.scopes.scopeOf bodyId) s ps.params
    let (s, signature) := s.define scope name ps
    let (s, list) := s.add .unknown (some bodyId)
    let (s, last) ← stmts s none body
    let s ← flowFrom? s last list
    let s ← flow s list signature.returns
    pure (s, vertex)
  | .assign id name value => do
    let scope := s.scopes.scopeOf id
    let (s, vertex) := s.add .undefined (some id)
    let (s, value) ← expr scope s value
    let (s, target) := s.add .unknown none
    let s ← flow s value target
    pure (s.setLocal scope name target, vertex)
  | .expr e => expr (s.scopes.scopeOf e.id) s e

def stmts (s : Inference) (last : Option VertexId) :
    List Stmt → Option (Inference × Option VertexId)
  | [] => some (s, last)
  | first :: rest => do
    let (s, vertex) ← stmt s first
    stmts s (some vertex) rest

end

def ofProgram (p : Program) : Option Inference := do
  let (s, list) := (start (.ofProgram p)).add .unknown (some p.body.id)
  let (s, last) ← stmts s none p.stmts
  let s ← flowFrom? s last list
  if endsInDefine p.stmts then
    pure s
  else
    let (s, vertex) := s.add .number (some p.id)
    flow s list vertex

end Inference.Checked

/-! ## No test fails -/

/-- There is a vertex of this number. -/
abbrev FlowGraph.Exists (g : FlowGraph) (v : VertexId) : Prop :=
  g.Has (fun _ => True) v

theorem FlowGraph.exists_iff {g : FlowGraph} {v : VertexId} : g.Exists v ↔ v < g.size :=
  ⟨fun ⟨_, hr, _⟩ => g.lt_size hr, fun h => ⟨_, Array.getElem?_eq_getElem h, trivial⟩⟩

/-- The vertex of this number stands for this node. -/
abbrev FlowGraph.Stands (g : FlowGraph) (id : NodeId) (v : VertexId) : Prop :=
  g.Has (fun r => r.node = some id) v

/-- The vertex numbers in the edges, variables and functions are those of vertices. -/
abbrev Inference.InRange (s : Inference) : Prop :=
  s.Sound (fun _ => True) (fun _ => True)

theorem FlowGraph.Has.exists {g : FlowGraph} {T : Vertex → Prop} {v : VertexId} (h : g.Has T v) :
    g.Exists v :=
  let ⟨r, hr, _⟩ := h
  ⟨r, hr, trivial⟩

namespace Inference

variable {s : Inference}

namespace Checked

theorem flow_eq {lower upper : VertexId} (hlower : s.graph.Exists lower)
    (hupper : s.graph.Exists upper) : flow s lower upper = some (s.flow lower upper) :=
  if_pos ⟨FlowGraph.exists_iff.mp hlower, FlowGraph.exists_iff.mp hupper⟩

theorem flowFrom?_eq {lower : Option VertexId} {upper : VertexId}
    (hlower : ∀ v, lower = some v → s.graph.Exists v) (hupper : s.graph.Exists upper) :
    flowFrom? s lower upper = some (s.flowFrom? lower upper) := by
  cases lower with
  | none => rfl
  | some lower => exact flow_eq (hlower lower rfl) hupper

theorem flowAll_eq {pairs : List (VertexId × VertexId)} {s : Inference}
    (hpairs : ∀ pair ∈ pairs, s.graph.Exists pair.1 ∧ s.graph.Exists pair.2) :
    pairs.foldlM (fun s pair => flow s pair.1 pair.2) s =
      some (pairs.foldl (fun s (arg, param) => s.flow arg param) s) := by
  induction pairs generalizing s with
  | nil => rfl
  | cons pair rest ih =>
    obtain ⟨⟨harg, hparam⟩, hrest⟩ := List.forall_mem_cons.mp hpairs
    rw [List.foldlM_cons, flow_eq harg hparam]
    exact ih hrest

theorem apply_eq {signature : Option Signature} {args : List VertexId} {result : VertexId}
    (hsig : ∀ sig, signature = some sig → sig.Sound (fun _ => True) (fun _ => True) s.graph)
    (hargs : ∀ v ∈ args, s.graph.Exists v) (hresult : s.graph.Exists result) :
    apply s signature args result = some (s.apply signature args result) := by
  cases signature with
  | none => rfl
  | some sig =>
    obtain ⟨hparams, hreturns⟩ := hsig sig rfl
    have hgrows := Grows.flowAll (args.zip sig.params) s
    have hpairs : ∀ pair ∈ args.zip sig.params, s.graph.Exists pair.1 ∧ s.graph.Exists pair.2 := by
      intro pair hpair
      obtain ⟨harg, hparam⟩ := List.of_mem_zip hpair
      exact ⟨hargs _ harg, hparams _ hparam⟩
    rw [apply, flowAll_eq hpairs]
    exact flow_eq (hgrows.has hreturns) (hgrows.has hresult)

end Checked

/-- What a part of a walk leaves behind if it comes to the vertex of this node. -/
def Reached (id : NodeId) (x : Inference × VertexId) : Prop :=
  x.1.InRange ∧ x.1.graph.Stands id x.2

theorem checked_apply (h : s.InRange) (id : NodeId) {signature : Option Signature}
    (hsig : ∀ sig, signature = some sig → sig.Sound (fun _ => True) (fun _ => True) s.graph)
    {args : List VertexId} (hargs : ∀ v ∈ args, s.graph.Exists v) :
    (Checked.apply (s.add .unknown (some id)).1 signature args (s.add .unknown (some id)).2).bind
        (fun s' => some (s', (s.add .unknown (some id)).2)) =
      some ((s.add .unknown (some id)).1.apply signature args (s.add .unknown (some id)).2,
        (s.add .unknown (some id)).2) ∧
      Reached id ((s.add .unknown (some id)).1.apply signature args (s.add .unknown (some id)).2,
        (s.add .unknown (some id)).2) := by
  have hgrows := Grows.add s .unknown (some id)
  refine ⟨?_, (leaves_apply h trivial trivial hsig hargs).1,
    (Grows.apply _ _ _ _).has (s.has_add rfl)⟩
  rw [Checked.apply_eq (fun sig hs => hgrows.signature (hsig sig hs))
    (fun v hv => hgrows.has (hargs v hv)) (s.has_add trivial)]
  rfl

mutual

theorem checked_expr (scope : ScopeId) : ∀ {s : Inference} (e : Expr), s.InRange →
    Checked.expr scope s e = some (expr scope s e) ∧ Reached e.id (expr scope s e)
  | s, .number id _ _, h => ⟨rfl, h.add .number (some id), s.has_add rfl⟩
  | s, .var id x, h => by
    have hadd := h.add .unknown (some id)
    have hvertex : (s.add .unknown (some id)).1.graph.Stands id (s.add .unknown (some id)).2 :=
      s.has_add rfl
    have hflow := Checked.flowFrom?_eq (hadd.locals scope x) hvertex.exists
    refine ⟨?_, hadd.flowFrom? (hadd.locals scope x) fun _ => hvertex.exists,
      (Grows.flowFrom? _ _ _).has hvertex⟩
    simp only [Checked.expr, hflow, expr]
    rfl
  | s, .binary id op left right, h => by
    obtain ⟨hleft, hl, hlvertex⟩ := checked_expr scope left h
    obtain ⟨hright, hr, hrvertex⟩ := checked_expr scope right hl
    have hlvertex := (grows_expr scope (expr scope s left).1 right).has hlvertex.exists
    obtain ⟨happly, hreached⟩ := checked_apply hr id (hr.builtins (.ofOperator op)) fun v hv => by
      rcases List.mem_pair.mp hv with rfl | rfl
      · exact hlvertex
      · exact hrvertex.exists
    refine ⟨?_, hreached⟩
    simp only [Checked.expr, hleft, hright, Option.bind_eq_bind, Option.bind_some, expr]
    exact happly
  | s, .negate id operand, h => by
    obtain ⟨hoperand, ho, hvertex⟩ := checked_expr scope operand h
    obtain ⟨happly, hreached⟩ := checked_apply ho id (ho.builtins .negate) fun v hv => by
      rw [List.mem_singleton.mp hv]
      exact hvertex.exists
    refine ⟨?_, hreached⟩
    simp only [Checked.expr, hoperand, Option.bind_eq_bind, Option.bind_some, expr]
    exact happly
  | s, .call id f args, h => by
    obtain ⟨hargs, ha, hvertices⟩ := checked_exprs scope args h
    obtain ⟨happly, hreached⟩ := checked_apply ha id (fun sig => ha.function?) hvertices
    refine ⟨?_, hreached⟩
    simp only [Checked.expr, hargs, Option.bind_eq_bind, Option.bind_some, expr]
    exact happly

theorem checked_exprs (scope : ScopeId) : ∀ {s : Inference} (es : List Expr), s.InRange →
    Checked.exprs scope s es = some (exprs scope s es) ∧ (exprs scope s es).1.InRange ∧
      ∀ v ∈ (exprs scope s es).2, (exprs scope s es).1.graph.Exists v
  | _, [], h => ⟨rfl, h, nofun⟩
  | s, e :: rest, h => by
    obtain ⟨he, hs, hvertex⟩ := checked_expr scope e h
    obtain ⟨hrest, hr, hvertices⟩ := checked_exprs scope rest hs
    refine ⟨?_, hr, List.forall_mem_cons.mpr ⟨?_, hvertices⟩⟩
    · simp only [Checked.exprs, he, hrest, Option.bind_eq_bind, Option.bind_some, exprs]
      rfl
    · exact (grows_exprs scope _ rest).has hvertex.exists

end

theorem inRange_params (body : ScopeId) (ps : List Param) (h : s.InRange) :
    (params body s ps).1.InRange ∧ ∀ v ∈ (params body s ps).2, (params body s ps).1.graph.Exists v :=
  sound_params body ps h (fun _ _ => ⟨trivial, trivial⟩) fun _ _ => trivial

/-- A vertex stays when vertices are added. -/
theorem has_of_made {s' : Inference} {rest : List Vertex} (h : s'.made = s.made ++ rest)
    {P : Vertex → Prop} {v : VertexId} (hv : s.graph.Has P v) : s'.graph.Has P v := by
  obtain ⟨r, hr, hP⟩ := hv
  refine ⟨r, ?_, hP⟩
  have hlt : v < s.made.length := s.graph.lt_size hr
  rw [← Array.getElem?_toList] at hr ⊢
  change s'.made[v]? = some r
  rw [h, List.getElem?_append_left hlt]
  exact hr

mutual

theorem checked_stmt : ∀ {s : Inference} (st : Stmt), s.InRange →
    Checked.stmt s st = some (stmt s st) ∧ Reached st.id (stmt s st)
  | s, .define id f ps bodyId body, h => by
    have hvertex : (s.add .undefined (some id)).1.graph.Stands id (s.add .undefined (some id)).2 :=
      s.has_add rfl
    simp only [Checked.stmt, stmt]
    have hadd := h.add .undefined (some id)
    generalize s.add .undefined (some id) = start at *
    -- the parameters
    have hgrowsParams := grows_params (start.1.scopes.scopeOf bodyId) start.1 ps.params
    obtain ⟨hparams, hparamVertices⟩ := inRange_params (start.1.scopes.scopeOf bodyId) ps.params hadd
    generalize params (start.1.scopes.scopeOf bodyId) start.1 ps.params = withParams at *
    -- the function itself
    have hgrowsDefine := Grows.define withParams.1 (s.scopes.scopeOf id) f withParams.2
    obtain ⟨hdefine, hreturns⟩ := sound_define hparams trivial trivial (s.scopes.scopeOf id) f
      hparamVertices
    generalize withParams.1.define (s.scopes.scopeOf id) f withParams.2 = defined at *
    -- the list of its statements
    have hlist := hdefine.add .unknown (some bodyId)
    have hlistVertex : (defined.1.add .unknown (some bodyId)).1.graph.Exists
        (defined.1.add .unknown (some bodyId)).2 := defined.1.has_add trivial
    have hgrowsList := Grows.add defined.1 .unknown (some bodyId)
    generalize defined.1.add .unknown (some bodyId) = withList at *
    obtain ⟨hchecked, hbody, hlast⟩ := checked_stmts none body hlist nofun
    have hmade := made_stmts withList.1 none body
    simp only [hchecked, Option.bind_eq_bind, Option.bind_some]
    generalize stmts withList.1 none body = withBody at *
    have hlistVertex := has_of_made hmade hlistVertex
    have hgrowsLast := Grows.flowFrom? withBody.1 withBody.2 withList.2
    have hflow := hbody.flowFrom? hlast fun _ => hlistVertex
    have hreturns := hgrowsLast.has (has_of_made hmade (hgrowsList.has hreturns))
    refine ⟨?_, hflow.flow (hgrowsLast.has hlistVertex) hreturns, ?_⟩
    · rw [Checked.flowFrom?_eq hlast hlistVertex, Option.bind_some,
        Checked.flow_eq (hgrowsLast.has hlistVertex) hreturns]
      rfl
    · exact (Grows.flow _ _ _).has <| hgrowsLast.has <| has_of_made hmade <| hgrowsList.has <|
        hgrowsDefine.has <| hgrowsParams.has hvertex
  | s, .assign id x value, h => by
    have hvertex : (s.add .undefined (some id)).1.graph.Stands id (s.add .undefined (some id)).2 :=
      s.has_add rfl
    simp only [Checked.stmt, stmt]
    have hadd := h.add .undefined (some id)
    generalize s.add .undefined (some id) = start at *
    have hgrowsValue := grows_expr (s.scopes.scopeOf id) start.1 value
    obtain ⟨hchecked, hvalue, hvalueVertex⟩ := checked_expr (s.scopes.scopeOf id) value hadd
    simp only [hchecked, Option.bind_eq_bind, Option.bind_some]
    generalize expr (s.scopes.scopeOf id) start.1 value = withValue at *
    have htarget := hvalue.add .unknown none
    have htargetVertex : (withValue.1.add .unknown none).1.graph.Exists
        (withValue.1.add .unknown none).2 := withValue.1.has_add trivial
    have hgrowsTarget := Grows.add withValue.1 .unknown none
    generalize withValue.1.add .unknown none = withTarget at *
    have hvalueVertex := hgrowsTarget.has hvalueVertex.exists
    have hflow := htarget.flow hvalueVertex htargetVertex
    refine ⟨?_, hflow.setLocal _ x htargetVertex, ?_⟩
    · rw [Checked.flow_eq hvalueVertex htargetVertex]
      rfl
    · exact (Grows.setLocal _ _ _ _).has <| (Grows.flow _ _ _).has <| hgrowsTarget.has <|
        hgrowsValue.has hvertex
  | s, .expr e, h => checked_expr (s.scopes.scopeOf e.id) e h

theorem checked_stmts : ∀ {s : Inference} (last : Option VertexId) (ss : List Stmt), s.InRange →
    (∀ v, last = some v → s.graph.Exists v) →
      Checked.stmts s last ss = some (stmts s last ss) ∧ (stmts s last ss).1.InRange ∧
        ∀ v, (stmts s last ss).2 = some v → (stmts s last ss).1.graph.Exists v
  | _, _, [], h, hlast => ⟨rfl, h, hlast⟩
  | _, _, first :: rest, h, _ => by
    obtain ⟨hfirst, hs, hvertex⟩ := checked_stmt first h
    obtain ⟨hrest, hr, hlast⟩ := checked_stmts (some _) rest hs fun v hv => by
      cases hv
      exact hvertex.exists
    refine ⟨?_, hr, hlast⟩
    simp only [Checked.stmts, hfirst, Option.bind_eq_bind, Option.bind_some]
    exact hrest

end

/-- The walk over a program, by its beginning and its end. -/
theorem ofProgram_eq_finish (p : Program) :
    ofProgram p = finish p (begin p).2 (stmts (begin p).1 none p.stmts).1
      (stmts (begin p).1 none p.stmts).2 := by
  unfold ofProgram finish begin
  generalize start (.ofProgram p) = s
  rfl

/-- In every walk over a program each edge is drawn between vertices that are there already. -/
theorem checked_ofProgram (p : Program) :
    Checked.ofProgram p = some (ofProgram p) ∧ (ofProgram p).InRange := by
  have hbegin : (begin p).1.InRange :=
    (sound_start (Scopes.bare_ofProgram p) trivial trivial).add .unknown (some p.body.id)
  obtain ⟨hchecked, hstmts, hlast⟩ := checked_stmts none p.stmts hbegin fun v hv =>
    absurd hv.symm (Option.some_ne_none v)
  have hlist : (stmts (begin p).1 none p.stmts).1.graph.Exists (begin p).2 :=
    has_of_made (made_stmts (begin p).1 none p.stmts) ⟨_, vertex_begin p, trivial⟩
  have hunfold : Checked.ofProgram p = (Checked.stmts (begin p).1 none p.stmts).bind fun walked =>
      (Checked.flowFrom? walked.1 walked.2 (begin p).2).bind fun s =>
        if endsInDefine p.stmts then some s else
          Checked.flow (s.add .number (some p.id)).1 (begin p).2 (s.add .number (some p.id)).2 := by
    unfold Checked.ofProgram begin
    generalize start (.ofProgram p) = s
    rfl
  rw [hunfold, ofProgram_eq_finish, hchecked, Option.bind_some, Checked.flowFrom?_eq hlast hlist,
    Option.bind_some, finish]
  generalize stmts (begin p).1 none p.stmts = walked at *
  have hflow := hstmts.flowFrom? hlast fun _ => hlist
  have hlist := (Grows.flowFrom? walked.1 walked.2 (begin p).2).has hlist
  generalize walked.1.flowFrom? walked.2 (begin p).2 = s at *
  split
  · exact ⟨rfl, hflow⟩
  · have hlist := (Grows.add s .number (some p.id)).has hlist
    have hvertex : (s.add .number (some p.id)).1.graph.Exists (s.add .number (some p.id)).2 :=
      s.has_add trivial
    exact ⟨Checked.flow_eq hlist hvertex, (hflow.add .number (some p.id)).flow hlist hvertex⟩

end Inference

/-! ## Searches -/

namespace FlowGraph

namespace Checked

def visit (g : FlowGraph) (kind : Kind) (s : Search) (v : VertexId) : Option Search :=
  if v ∈ s.visited then
    some s
  else
    let s := { s with visited := v :: s.visited }
    match g.kind? v with
    | none => none
    | some .unknown => some { s with level := s.level ++ g.successors v }
    | some found => some (if found = kind then s else { s with clashing := s.clashing ++ [v] })

def search (g : FlowGraph) (kind : Kind) : (turns : Nat) → Search → Option Search
  | 0, s => some s
  | turns + 1, s =>
    match s.level with
    | [] => some s
    | level => do
      let s ← level.foldlM (visit g kind) { s with level := [] }
      search g kind turns s

def clashes (g : FlowGraph) (source : VertexId) : Option (List VertexId) :=
  match g.kind? source with
  | none => none
  | some .unknown => some []
  | some kind =>
    let start := { visited := [source], clashing := [], level := g.successors source }
    (search g kind (g.size + 1) start).map Search.clashing

def mismatches (g : FlowGraph) : Option (List Mismatch) := do
  let found ← (List.range g.size).mapM fun source => do
    let targets ← clashes g source
    targets.mapM (g.mismatch? source)
  pure found.flatten

end Checked

variable {g : FlowGraph} {s : Search}

/-- Everything that a search has noted is a vertex. -/
structure Search.InRange (g : FlowGraph) (s : Search) : Prop where
  clashing : ∀ v ∈ s.clashing, v < g.size
  level : ∀ v ∈ s.level, v < g.size

theorem checked_visit (kind : Kind) (hg : ∀ edge ∈ g.edges, edge.2 < g.size) (h : s.InRange g)
    {v : VertexId} (hv : v < g.size) :
    Checked.visit g kind s v = some (g.visit kind s v) ∧ (g.visit kind s v).InRange g := by
  have hkind : g.kind? v = some g.vertices[v].kind := by
    rw [kind?, Array.getElem?_eq_getElem hv]
    rfl
  unfold Checked.visit visit
  rw [hkind]
  by_cases hvisited : v ∈ s.visited
  · rw [if_pos hvisited, if_pos hvisited]
    exact ⟨rfl, h⟩
  · rw [if_neg hvisited, if_neg hvisited]
    have hclash : ∀ found : Kind, Search.InRange g (if found = kind then
        { s with visited := v :: s.visited } else
        { s with visited := v :: s.visited, clashing := s.clashing ++ [v] }) := by
      intro found
      split
      · exact ⟨h.clashing, h.level⟩
      · refine ⟨fun w hw => ?_, h.level⟩
        rcases List.mem_append.mp hw with hold | hnew
        · exact h.clashing w hold
        · exact List.mem_singleton.mp hnew ▸ hv
    cases g.vertices[v].kind with
    | unknown =>
      refine ⟨rfl, h.clashing, fun w hw => ?_⟩
      rcases List.mem_append.mp hw with hold | hsucc
      · exact h.level w hold
      · exact hg (v, w) (g.mem_successors.mp hsucc)
    | number => exact ⟨rfl, hclash .number⟩
    | undefined => exact ⟨rfl, hclash .undefined⟩
    | function => exact ⟨rfl, hclash .function⟩

theorem checked_visits (kind : Kind) (hg : ∀ edge ∈ g.edges, edge.2 < g.size)
    {level : List VertexId} {s : Search} (h : s.InRange g) (hlevel : ∀ v ∈ level, v < g.size) :
    level.foldlM (Checked.visit g kind) s = some (level.foldl (g.visit kind) s) ∧
      (level.foldl (g.visit kind) s).InRange g := by
  induction level generalizing s with
  | nil => exact ⟨rfl, h⟩
  | cons v rest ih =>
    obtain ⟨hv, hrest⟩ := List.forall_mem_cons.mp hlevel
    obtain ⟨hvisit, hs⟩ := checked_visit kind hg h hv
    rw [List.foldlM_cons, hvisit]
    exact ih hs hrest

theorem checked_search (kind : Kind) (hg : ∀ edge ∈ g.edges, edge.2 < g.size) (turns : Nat)
    {s : Search} (h : s.InRange g) :
    Checked.search g kind turns s = some (g.search kind turns s) ∧
      (g.search kind turns s).InRange g := by
  induction turns generalizing s with
  | zero => exact ⟨rfl, h⟩
  | succ turns ih =>
    by_cases hlevel : s.level = []
    · rw [search_of_level_nil hlevel, Checked.search, hlevel]
      exact ⟨rfl, h⟩
    · have hnext : Search.InRange g { s with level := [] } :=
        ⟨h.clashing, fun v hv => absurd hv List.not_mem_nil⟩
      obtain ⟨hvisits, hs⟩ := checked_visits kind hg hnext h.level
      obtain ⟨hsearch, hr⟩ := ih hs
      rw [search_succ _ hlevel]
      refine ⟨?_, hr⟩
      rw [Checked.search]
      split
      next hnil => exact absurd hnil hlevel
      next =>
        rw [hvisits]
        exact hsearch

theorem checked_clashing (kind : Kind) (hg : ∀ edge ∈ g.edges, edge.2 < g.size) (turns : Nat)
    (h : s.InRange g) :
    (Checked.search g kind turns s).map Search.clashing = some (g.search kind turns s).clashing ∧
      ∀ v ∈ (g.search kind turns s).clashing, v < g.size := by
  obtain ⟨hsearch, hr⟩ := checked_search kind hg turns h
  exact ⟨congrArg (Option.map Search.clashing) hsearch, hr.clashing⟩

theorem checked_clashes (hg : ∀ edge ∈ g.edges, edge.2 < g.size) {source : VertexId}
    (hsource : source < g.size) :
    Checked.clashes g source = some (g.clashes source) ∧ ∀ v ∈ g.clashes source, v < g.size := by
  have hkind : g.kind? source = some g.vertices[source].kind := by
    rw [kind?, Array.getElem?_eq_getElem hsource]
    rfl
  have hstart : Search.InRange g
      { visited := [source], clashing := [], level := g.successors source } :=
    ⟨fun v hv => absurd hv List.not_mem_nil, fun v hv => hg (source, v) (g.mem_successors.mp hv)⟩
  unfold Checked.clashes clashes
  rw [hkind]
  cases g.vertices[source].kind with
  | unknown => exact ⟨rfl, fun v hv => absurd hv List.not_mem_nil⟩
  | number => exact checked_clashing .number hg (g.size + 1) hstart
  | undefined => exact checked_clashing .undefined hg (g.size + 1) hstart
  | function => exact checked_clashing .function hg (g.size + 1) hstart

theorem mapM_eq_filterMap {α β : Type} {f : α → Option β} : ∀ {xs : List α},
    (∀ x ∈ xs, ∃ y, f x = some y) → xs.mapM f = some (xs.filterMap f)
  | [], _ => rfl
  | x :: rest, h => by
    obtain ⟨⟨y, hy⟩, hrest⟩ := List.forall_mem_cons.mp h
    rw [List.mapM_cons, hy, mapM_eq_filterMap hrest, List.filterMap_cons_some hy]
    rfl

/-- If values flow into vertices only, the search for mismatches meets with vertices only. -/
theorem checked_mismatches (hg : ∀ edge ∈ g.edges, edge.2 < g.size) :
    Checked.mismatches g = some g.mismatches := by
  have hfound : ∀ source ∈ List.range g.size,
      (Checked.clashes g source).bind (·.mapM (g.mismatch? source)) =
        some ((g.clashes source).filterMap (g.mismatch? source)) := by
    intro source hmem
    have hsource : source < g.size := List.mem_range.mp hmem
    obtain ⟨hclashes, hlt⟩ := checked_clashes hg hsource
    rw [hclashes, Option.bind_some]
    refine mapM_eq_filterMap fun v hv => Option.isSome_iff_exists.mp ?_
    rw [mismatch?, Array.getElem?_eq_getElem hsource, Array.getElem?_eq_getElem (hlt v hv)]
    rfl
  have hall : (List.range g.size).mapM (fun source =>
      (Checked.clashes g source).bind (·.mapM (g.mismatch? source))) =
        some ((List.range g.size).map fun source =>
          (g.clashes source).filterMap (g.mismatch? source)) := by
    rw [mapM_eq_filterMap fun source hmem => ⟨_, hfound source hmem⟩, List.filterMap_congr hfound,
      ← List.filterMap_eq_map]
    rfl
  simp only [Checked.mismatches, Option.bind_eq_bind, hall, Option.bind_some, mismatches,
    List.flatMap_def]
  rfl

end FlowGraph
end Abacus
