import Abacus.Proofs.Flow.Scoping

/-!
# What a walk adds and what it leaves alone

A walk over a tree only adds to what is there: vertices, edges, variables, functions
(`Inference.Grows`). And it adds variables only where they belong: a statement in a scope assigns
variables of that scope and of the scopes that it opens itself (`Inference.local?_stmtIn`).
-/
namespace Abacus

/-! ## Tables of scopes -/

namespace Scopes

section
variable {α κ : Type} [DecidableEq κ] (f : Scope → Option α) {g : Scope → Scope}
  (scopes : Array Scope) (scope k : ScopeId)

/-- A change of one scope that a reading of scopes does not see. -/
theorem bind_modify (h : ∀ r, f (g r) = f r) :
    (scopes.modify scope g)[k]?.bind f = scopes[k]?.bind f := by
  rw [Array.getElem?_modify]
  by_cases hk : scope = k
  · rw [if_pos hk]
    cases scopes[k]? with
    | none => rfl
    | some r => exact h r
  · rw [if_neg hk]

/-- A change of one scope that a reading of scopes sees under one key. -/
theorem bind_modify_insert {x y : κ} {value : α}
    (h : ∀ r, f (g r) = if x = y then some value else f r) :
    (scopes.modify scope g)[k]?.bind f =
      if scope = k ∧ x = y ∧ k < scopes.size then some value else scopes[k]?.bind f := by
  rw [Array.getElem?_modify]
  by_cases hk : scope = k
  · rw [if_pos hk]
    by_cases hlt : k < scopes.size
    · rw [Array.getElem?_eq_getElem hlt]
      by_cases hx : x = y <;> simp [hk, hx, hlt, h]
    · rw [Array.getElem?_eq_none (Nat.le_of_not_lt hlt)]
      simp [hlt]
  · rw [if_neg hk, if_neg fun hand => hk hand.1]

end

variable (s : Scopes) (scope k : ScopeId)

/-- The function that a scope itself defines. -/
def ownFunction? (name : String) : Option Signature := do
  (← s.scopes[scope]?).functions.get? name

theorem local?_setLocal (x y : String) (v : VertexId) :
    (s.setLocal scope x v).local? k y =
      if scope = k ∧ x = y ∧ k < s.scopes.size then some v else s.local? k y :=
  bind_modify_insert (fun r => r.locals.get? y) s.scopes scope k fun r =>
    Table.get?_insert r.locals x y v

theorem local?_setLocal_of_ne {scope k : ScopeId} (h : scope ≠ k) (x y : String) (v : VertexId) :
    (s.setLocal scope x v).local? k y = s.local? k y := by
  rw [local?_setLocal, if_neg fun hk => h hk.1]

theorem local?_define (f y : String) (sig : Signature) :
    (s.define scope f sig).local? k y = s.local? k y :=
  bind_modify (fun r => r.locals.get? y) s.scopes scope k fun _ => rfl

theorem ownFunction?_setLocal (x f : String) (v : VertexId) :
    (s.setLocal scope x v).ownFunction? k f = s.ownFunction? k f :=
  bind_modify (fun r => r.functions.get? f) s.scopes scope k fun _ => rfl

theorem ownFunction?_define (f g : String) (sig : Signature) :
    (s.define scope f sig).ownFunction? k g =
      if scope = k ∧ f = g ∧ k < s.scopes.size then some sig else s.ownFunction? k g :=
  bind_modify_insert (fun r => r.functions.get? g) s.scopes scope k fun r =>
    Table.get?_insert r.functions f g sig

theorem size_setLocal (x : String) (v : VertexId) :
    (s.setLocal scope x v).scopes.size = s.scopes.size :=
  Array.size_modify

theorem size_define (f : String) (sig : Signature) :
    (s.define scope f sig).scopes.size = s.scopes.size :=
  Array.size_modify

/-- A function that a name means is one that some scope defines. -/
theorem ownFunction?_of_function? {f : String} {sig : Signature}
    (h : s.function? scope f = some sig) : ∃ k, s.ownFunction? k f = some sig := by
  unfold function? at h
  generalize s.scopes.size = depth at h
  induction depth generalizing scope with
  | zero => cases h
  | succ depth ih =>
    unfold functionIn at h
    cases hscope : s.scopes[scope]? with
    | none => rw [hscope] at h; cases h
    | some r =>
      rw [hscope] at h
      cases hf : r.functions.get? f with
      | some own =>
        simp only [bind, Option.bind, hf] at h
        cases h
        exact ⟨scope, by simp only [ownFunction?, hscope, bind, Option.bind, hf]⟩
      | none =>
        cases hparent : r.parent with
        | none => simp only [bind, Option.bind, hf, hparent] at h; cases h
        | some parent =>
          simp only [bind, Option.bind, hf, hparent] at h
          exact ih parent h

/-- What a scope defines itself comes before what is around it. -/
theorem function?_ne_none {f : String} (h : s.ownFunction? scope f ≠ none) :
    s.function? scope f ≠ none := by
  unfold ownFunction? at h
  unfold function?
  cases hscope : s.scopes[scope]? with
  | none => rw [hscope] at h; exact absurd rfl h
  | some r =>
    obtain ⟨hlt, -⟩ := Array.getElem?_eq_some_iff.mp hscope
    obtain ⟨depth, hdepth⟩ : ∃ depth, s.scopes.size = depth + 1 := ⟨s.scopes.size - 1, by omega⟩
    rw [hdepth, functionIn, hscope]
    simp only [hscope, bind, Option.bind] at h ⊢
    cases hf : r.functions.get? f with
    | none => exact absurd hf h
    | some own => exact nofun

end Scopes

/-! ## Graphs that grow -/

namespace FlowGraph

variable (g : FlowGraph)

theorem vertex_add (kind : Kind) (node : Option NodeId) :
    (g.add kind node).vertices[g.size]? = some { kind, node } :=
  Array.getElem?_push_size

theorem vertex_add_of_lt {v : VertexId} (kind : Kind) (node : Option NodeId) (h : v < g.size) :
    (g.add kind node).vertices[v]? = g.vertices[v]? := by
  exact (Array.getElem?_push ..).trans (if_neg (Nat.ne_of_lt h))

theorem size_add (kind : Kind) (node : Option NodeId) : (g.add kind node).size = g.size + 1 :=
  Array.size_push _

theorem lt_size {v : VertexId} {r : Vertex} (h : g.vertices[v]? = some r) : v < g.size :=
  (Array.getElem?_eq_some_iff.mp h).1

theorem mem_edges_flow {lower upper : VertexId} {edge : VertexId × VertexId} :
    edge ∈ (g.flow lower upper).edges ↔ edge ∈ g.edges ∨ edge = (lower, upper) :=
  Array.mem_push

end FlowGraph

namespace Inference

/-- Nothing that was there is gone. -/
structure Grows (s s' : Inference) : Prop where
  vertices : ∀ {v : VertexId} {r : Vertex}, s.graph.vertices[v]? = some r →
    s'.graph.vertices[v]? = some r
  edges : ∀ {edge : VertexId × VertexId}, edge ∈ s.graph.edges → edge ∈ s'.graph.edges
  functions : ∀ {k : ScopeId} {f : String},
    s.scopes.ownFunction? k f ≠ none → s'.scopes.ownFunction? k f ≠ none
  scopes : s'.scopes.scopes.size = s.scopes.scopes.size

namespace Grows

variable {s s' s'' : Inference}

theorem refl (s : Inference) : Grows s s :=
  ⟨id, id, id, rfl⟩

theorem trans (h : Grows s s') (h' : Grows s' s'') : Grows s s'' :=
  ⟨h'.vertices ∘ h.vertices, h'.edges ∘ h.edges, h'.functions ∘ h.functions,
    h'.scopes.trans h.scopes⟩

theorem size_le (h : Grows s s') : s.graph.size ≤ s'.graph.size := by
  refine Nat.not_lt.mp fun hlt => ?_
  have hvertex := Array.getElem?_eq_getElem hlt
  exact Nat.lt_irrefl _ (s'.graph.lt_size (h.vertices hvertex))

theorem add (s : Inference) (kind : Kind) (node : Option NodeId) :
    Grows s (s.add kind node).1 := by
  refine ⟨fun {v r} hv => ?_, id, id, rfl⟩
  exact (s.graph.vertex_add_of_lt kind node (s.graph.lt_size hv)).trans hv

theorem flow (s : Inference) (lower upper : VertexId) : Grows s (s.flow lower upper) :=
  ⟨id, fun hedge => s.graph.mem_edges_flow.mpr (.inl hedge), id, rfl⟩

theorem flowFrom? (s : Inference) (lower : Option VertexId) (upper : VertexId) :
    Grows s (s.flowFrom? lower upper) := by
  cases lower with
  | none => exact refl s
  | some lower => exact flow s lower upper

theorem setLocal (s : Inference) (scope : ScopeId) (x : String) (v : VertexId) :
    Grows s (s.setLocal scope x v) := by
  refine ⟨id, id, fun {k f} hf => ?_, s.scopes.size_setLocal scope x v⟩
  rwa [Inference.setLocal, Scopes.ownFunction?_setLocal]

theorem define (s : Inference) (scope : ScopeId) (f : String) (ps : List VertexId) :
    Grows s (s.define scope f ps).1 := by
  have hvertices := (add s .function none).trans (add (s.add .function none).1 .unknown none)
  refine ⟨hvertices.vertices, hvertices.edges, fun {k g} hg => ?_, Scopes.size_define ..⟩
  simp only [Inference.define, Scopes.ownFunction?_define]
  split
  · exact nofun
  · exact hg

theorem flowAll (pairs : List (VertexId × VertexId)) (s : Inference) :
    Grows s (pairs.foldl (fun s (arg, param) => s.flow arg param) s) := by
  induction pairs generalizing s with
  | nil => exact refl s
  | cons pair rest ih => exact (flow s pair.1 pair.2).trans (ih _)

theorem apply (s : Inference) (signature : Option Signature) (args : List VertexId)
    (result : VertexId) : Grows s (s.apply signature args result) := by
  cases signature with
  | none => exact refl s
  | some signature => exact (flowAll _ s).trans (flow _ _ _)

end Grows

/-! ### Walks only add -/

mutual

theorem grows_expr (scope : ScopeId) : ∀ (s : Inference) (e : Expr), Grows s (expr scope s e).1
  | s, .number id _ _ => .add s .number (some id)
  | s, .var id _ => (Grows.add s .unknown (some id)).trans (.flowFrom? _ _ _)
  | s, .binary _ _ left right =>
    (grows_expr scope s left).trans <| (grows_expr scope _ right).trans <|
      (Grows.add _ _ _).trans (.apply _ _ _ _)
  | s, .negate _ operand =>
    (grows_expr scope s operand).trans <| (Grows.add _ _ _).trans (.apply _ _ _ _)
  | s, .call _ _ args =>
    (grows_exprs scope s args).trans <| (Grows.add _ _ _).trans (.apply _ _ _ _)

theorem grows_exprs (scope : ScopeId) : ∀ (s : Inference) (es : List Expr),
    Grows s (exprs scope s es).1
  | s, [] => .refl s
  | s, e :: rest => (grows_expr scope s e).trans (grows_exprs scope _ rest)

end

theorem grows_params (body : ScopeId) : ∀ (s : Inference) (ps : List Param),
    Grows s (params body s ps).1
  | s, [] => .refl s
  | s, p :: rest =>
    (Grows.add s _ _).trans <| (Grows.setLocal _ body p.name _).trans (grows_params body _ rest)

mutual

theorem grows_stmtIn : ∀ (scope next : ScopeId) (s : Inference) (stmt : Stmt),
    Grows s (stmtIn scope next s stmt).1
  | scope, next, s, .define _ name ps _ body =>
    (Grows.add s _ _).trans <| (grows_params next _ ps.params).trans <|
      (Grows.define _ scope name _).trans <| (Grows.add _ _ _).trans <|
        (grows_stmtsIn next (next + 1) _ none body).trans <|
          (Grows.flowFrom? _ _ _).trans (.flow _ _ _)
  | scope, _, s, .assign _ name value =>
    (Grows.add s _ _).trans <| (grows_expr scope _ value).trans <| (Grows.add _ _ _).trans <|
      (Grows.flow _ _ _).trans (.setLocal _ scope name _)
  | scope, _, s, .expr e => grows_expr scope s e

theorem grows_stmtsIn : ∀ (scope next : ScopeId) (s : Inference) (last : Option VertexId)
    (ss : List Stmt), Grows s (stmtsIn scope next s last ss).1
  | _, _, s, _, [] => .refl s
  | scope, next, s, _, first :: rest =>
    (grows_stmtIn scope next s first).trans (grows_stmtsIn scope _ _ _ rest)

end

/-! ### The ends of a walk -/

/-- The walk over a program starts with the vertex of its list. -/
theorem vertex_begin (p : Program) : (begin p).1.graph.vertices[(begin p).2]? =
    some { kind := .unknown, node := some p.body.id } := by
  unfold begin
  generalize start (.ofProgram p) = s
  exact s.graph.vertex_add .unknown (some p.body.id)

theorem grows_finish (p : Program) (list : VertexId) (s : Inference) (last : Option VertexId) :
    Grows s (finish p list s last) := by
  unfold finish
  by_cases hend : endsInDefine p.stmts
  · rw [if_pos hend]
    exact .flowFrom? s last list
  · rw [if_neg hend]
    exact (Grows.flowFrom? s last list).trans ((Grows.add _ _ _).trans (.flow _ _ _))

/-- The number that a program has to be, unless it ends in a definition. -/
theorem vertex_finish {p : Program} {list : VertexId} {s : Inference} {last : Option VertexId}
    (h : endsInDefine p.stmts = false) :
    (finish p list s last).graph.vertices[s.graph.size]? =
      some { kind := .number, node := some p.id } := by
  unfold finish
  rw [h]
  cases last <;> exact FlowGraph.vertex_add _ _ _

/-- The edges that a walk ends with: out of the last statement, and into the number that a program has
to be. -/
theorem mem_edges_finish {p : Program} {list : VertexId} {s : Inference} {last : Option VertexId}
    {lower upper : VertexId} :
    (lower, upper) ∈ (finish p list s last).graph.edges ↔ (lower, upper) ∈ s.graph.edges ∨
      (last = some lower ∧ upper = list) ∨
        (endsInDefine p.stmts = false ∧ lower = list ∧ upper = s.graph.size) := by
  have hlast : (lower, upper) ∈ (s.flowFrom? last list).graph.edges ↔
      (lower, upper) ∈ s.graph.edges ∨ last = some lower ∧ upper = list := by
    cases last with
    | none => simp [flowFrom?]
    | some last =>
      refine s.graph.mem_edges_flow.trans (or_congr_right ?_)
      simp [eq_comm]
  have hsize : (s.flowFrom? last list).graph.size = s.graph.size := by
    cases last <;> rfl
  unfold finish
  cases hend : endsInDefine p.stmts with
  | true => simp [hlast]
  | false =>
    simp only [Bool.false_eq_true, if_false, add, hsize, true_and]
    rw [← or_assoc, ← hlast, ← Prod.mk.injEq]
    exact FlowGraph.mem_edges_flow _

/-! ## Where variables go -/

theorem local?_params {body k : ScopeId} (hk : body ≠ k) (x : String) : ∀ (s : Inference)
    (ps : List Param), (params body s ps).1.scopes.local? k x = s.scopes.local? k x
  | _, [] => rfl
  | s, p :: rest => by
    simp only [params]
    rw [local?_params hk x _ rest]
    exact Scopes.local?_setLocal_of_ne _ hk _ _ _

mutual

/-- A statement assigns variables of its own scope and of the scopes it opens. -/
theorem local?_stmtIn {k : Nat} (x : String) : ∀ (scope next : Nat) (s : Inference)
    (stmt : Stmt), k ≠ scope → k < next ∨ next + stmt.scopeCount ≤ k →
      (stmtIn scope next s stmt).1.scopes.local? k x = s.scopes.local? k x
  | _, next, s, .define _ name ps _ body, _, hk => by
    rw [Stmt.scopeCount] at hk
    have hnext : next ≠ k := by omega
    simp only [stmtIn, flow, scopes_flowFrom?]
    rw [local?_stmtsIn x next (next + 1) _ none body hnext.symm (by omega)]
    simp only [add, define]
    rw [Scopes.local?_define]
    exact local?_params hnext x _ ps.params
  | scope, _, s, .assign _ name value, hscope, _ => by
    simp only [stmtIn, setLocal]
    rw [Scopes.local?_setLocal_of_ne _ hscope.symm]
    simp only [flow, add, scopes_expr]
  | scope, _, s, .expr e, _, _ => by
    simp only [stmtIn, scopes_expr]

theorem local?_stmtsIn {k : Nat} (x : String) : ∀ (scope next : Nat) (s : Inference)
    (last : Option VertexId) (ss : List Stmt), k ≠ scope →
      k < next ∨ next + Stmt.scopeCountAll ss ≤ k →
        (stmtsIn scope next s last ss).1.scopes.local? k x = s.scopes.local? k x
  | _, _, _, _, [], _, _ => rfl
  | scope, next, s, _, first :: rest, hscope, hk => by
    rw [Stmt.scopeCountAll] at hk
    simp only [stmtsIn]
    rw [local?_stmtsIn x scope (next + first.scopeCount) _ _ rest hscope (by omega),
      local?_stmtIn x scope next s first hscope (by omega)]

end

end Inference
end Abacus
