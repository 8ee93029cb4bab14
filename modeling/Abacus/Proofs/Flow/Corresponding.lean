import Mathlib.Data.List.Forall2
import Abacus.Proofs.Flow.Scoping
import Abacus.Proofs.Positions
import Abacus.Syntax.Alike

/-!
# The check looks at ids alone as names of nodes

Programs that are alike have corresponding graphs: the edges are the same, and a vertex has the same
kind in both and stands for no node or for the nodes at one position. The walks go side by side, with
the vertices in the same order, once scopes are counted along instead of looked up by ids, which
takes that the ids of each program are different (`Inference.corresponds_ofProgram`). The search goes
by kinds and edges only, so that mismatch by mismatch the two programs have the same kinds and the
same place (`Program.corresponds_mismatches`).
-/
namespace Abacus

variable {R : NodeId → NodeId → Prop}

/-! ## Trees with related ids -/

/-- Nodes at the same position have related ids. -/
def Node.Related (R : NodeId → NodeId → Prop) (n n' : Node) : Prop :=
  ∀ path m m', n.at? path = some m → n'.at? path = some m' → R m.label.id m'.label.id

namespace Node.Related

variable {n n' c c' : Node}

theorem root (h : Node.Related R n n') : R n.label.id n'.label.id :=
  h [] n n' rfl rfl

theorem child (h : Node.Related R n n') {i : Nat} (hc : n.children[i]? = some c)
    (hc' : n'.children[i]? = some c') : Node.Related R c c' := by
  intro path m m' hm hm'
  refine h (i :: path) m m' ?_ ?_
  · rw [at?_cons_of_child hc, hm]
  · rw [at?_cons_of_child hc', hm']

end Node.Related

/-- Expressions in the same place of their lists have related ids. -/
def Expr.RelatedAll (R : NodeId → NodeId → Prop) (es es' : List Expr) : Prop :=
  ∀ (i : Nat) (e e' : Expr), es[i]? = some e → es'[i]? = some e' → Node.Related R (.expr e) (.expr e')

def Stmt.RelatedAll (R : NodeId → NodeId → Prop) (ss ss' : List Stmt) : Prop :=
  ∀ (i : Nat) (s s' : Stmt), ss[i]? = some s → ss'[i]? = some s' → Node.Related R s.node s'.node

theorem Expr.relatedAll_operands {e e' : Expr} (h : Node.Related R (.expr e) (.expr e')) :
    Expr.RelatedAll R e.operands e'.operands := by
  intro i c c' hc hc'
  refine h.child (i := i) ?_ ?_
  · rw [Node.children, List.getElem?_map, hc, Option.map_some]
  · rw [Node.children, List.getElem?_map, hc', Option.map_some]

theorem Stmt.relatedAll_block {b b' : Block} (h : Node.Related R (.block b) (.block b')) :
    Stmt.RelatedAll R b.stmts b'.stmts := by
  intro i c c' hc hc'
  refine h.child (i := i) ?_ ?_
  · rw [Node.children, List.getElem?_map, hc, Option.map_some]
  · rw [Node.children, List.getElem?_map, hc', Option.map_some]

/-! ## Walks side by side -/

/-- The vertices are of one kind, and stand for no nodes or for nodes with related ids. -/
structure Vertex.Corresponds (R : NodeId → NodeId → Prop) (r r' : Vertex) : Prop where
  kind : r.kind = r'.kind
  node : Option.Rel R r.node r'.node

structure FlowGraph.Corresponds (R : NodeId → NodeId → Prop) (g g' : FlowGraph) : Prop where
  edges : g.edges = g'.edges
  vertices : List.Forall₂ (Vertex.Corresponds R) g.vertices.toList g'.vertices.toList

namespace FlowGraph.Corresponds

variable {g g' : FlowGraph} (h : g.Corresponds R g')
include h

theorem size : g.size = g'.size := by
  have hlength := h.vertices.length_eq
  rwa [Array.length_toList, Array.length_toList] at hlength

theorem add (kind : Kind) {node node' : Option NodeId} (hnode : Option.Rel R node node') :
    (g.add kind node).Corresponds R (g'.add kind node') where
  edges := h.edges
  vertices := by
    simp only [FlowGraph.add, Array.toList_push]
    exact List.rel_append h.vertices (.cons ⟨rfl, hnode⟩ .nil)

theorem flow (lower upper : VertexId) : (g.flow lower upper).Corresponds R (g'.flow lower upper) where
  edges := by
    simp only [FlowGraph.flow, h.edges]
  vertices := h.vertices

end FlowGraph.Corresponds

namespace Inference

/-- Corresponding graphs, and the same scopes and signatures. -/
structure Corresponds (R : NodeId → NodeId → Prop) (s t : Inference) : Prop where
  graph : s.graph.Corresponds R t.graph
  scopes : s.scopes.scopes = t.scopes.scopes
  builtins : s.builtins = t.builtins

/-- Both walks have come to the same, as far as ids do not matter. -/
structure Agrees {α : Type} (R : NodeId → NodeId → Prop) (x y : Inference × α) : Prop where
  state : x.1.Corresponds R y.1
  value : x.2 = y.2

namespace Corresponds

variable {s t : Inference} (h : s.Corresponds R t)
include h

theorem add (kind : Kind) {node node' : Option NodeId} (hnode : Option.Rel R node node') :
    Agrees R (s.add kind node) (t.add kind node') :=
  ⟨⟨h.graph.add kind hnode, h.scopes, h.builtins⟩, h.graph.size⟩

theorem flow (lower upper : VertexId) : (s.flow lower upper).Corresponds R (t.flow lower upper) :=
  ⟨h.graph.flow lower upper, h.scopes, h.builtins⟩

theorem flowFrom? (lower : Option VertexId) (upper : VertexId) :
    (s.flowFrom? lower upper).Corresponds R (t.flowFrom? lower upper) := by
  cases lower with
  | none => exact h
  | some lower => exact h.flow lower upper

theorem setLocal (scope : ScopeId) (x : String) (v : VertexId) :
    (s.setLocal scope x v).Corresponds R (t.setLocal scope x v) :=
  ⟨h.graph, by simp only [Inference.setLocal, Scopes.setLocal, h.scopes], h.builtins⟩

theorem local? (scope : ScopeId) (x : String) : s.scopes.local? scope x = t.scopes.local? scope x := by
  rw [Scopes.local?, Scopes.local?, h.scopes]

theorem function? (scope : ScopeId) (f : String) : s.function? scope f = t.function? scope f := by
  have hin : ∀ depth k, s.scopes.functionIn f depth k = t.scopes.functionIn f depth k := by
    intro depth
    induction depth with
    | zero => exact fun _ => rfl
    | succ depth ih =>
      intro k
      simp only [Scopes.functionIn, h.scopes, ih]
  simp only [Inference.function?, Scopes.function?, h.builtins, h.scopes, hin]

theorem define (scope : ScopeId) (f : String) (ps : List VertexId) :
    Agrees R (s.define scope f ps) (t.define scope f ps) := by
  have hfunction := h.graph.add .function (.none : Option.Rel R none none)
  have hreturns := hfunction.add .unknown (.none : Option.Rel R none none)
  have hsignature : (Signature.unknown s.graph ps).2 = (Signature.unknown t.graph ps).2 := by
    simp only [Signature.unknown, h.graph.size]
  refine ⟨⟨hreturns, ?_, h.builtins⟩, hsignature⟩
  simp only [Inference.define, Scopes.define, hsignature, h.scopes]

theorem apply (signature : Option Signature) (args : List VertexId) (result : VertexId) :
    (s.apply signature args result).Corresponds R (t.apply signature args result) := by
  cases signature with
  | none => exact h
  | some signature =>
    simp only [Inference.apply]
    refine flow ?_ signature.returns result
    generalize args.zip signature.params = pairs
    induction pairs generalizing s t with
    | nil => exact h
    | cons pair rest ih => exact ih (h.flow pair.1 pair.2)

end Corresponds

/-! ### Expressions -/

variable {s t : Inference}

/-- An operator or a call, the signature of which is the same in walks that correspond. -/
theorem agrees_apply (h : s.Corresponds R t) {id id' : NodeId} (hid : R id id')
    {signature : Inference → Option Signature}
    (hsignature : ∀ {s t : Inference}, s.Corresponds R t → signature s = signature t)
    {args args' : List VertexId} (hargs : args = args') :
    Agrees R
      ((s.add .unknown (some id)).1.apply (signature (s.add .unknown (some id)).1) args
        (s.add .unknown (some id)).2, (s.add .unknown (some id)).2)
      ((t.add .unknown (some id')).1.apply (signature (t.add .unknown (some id')).1) args'
        (t.add .unknown (some id')).2, (t.add .unknown (some id')).2) := by
  have hadd := h.add .unknown (.some hid)
  rw [hsignature hadd.state, hargs, hadd.value]
  exact ⟨hadd.state.apply _ args' _, rfl⟩

theorem Corresponds.builtin? (b : Builtin) {s t : Inference} (h : s.Corresponds R t) :
    s.builtins.get? b = t.builtins.get? b := by
  rw [h.builtins]

mutual

theorem agrees_expr (scope : ScopeId) : ∀ {e e' : Expr} {s t : Inference}, e.alike e' = true →
    Node.Related R (.expr e) (.expr e') → s.Corresponds R t →
      Agrees R (expr scope s e) (expr scope t e')
  | .number id _ _, .number id' _ _, _, _, _, hids, h => h.add .number (.some hids.root)
  | .var id x, .var id' _, s, t, halike, hids, h => by
    obtain rfl := beq_iff_eq.mp halike
    have hid : R id id' := hids.root
    have hadd := h.add .unknown (.some hid)
    have hflow := hadd.state.flowFrom? (s.scopes.local? scope x) s.graph.size
    refine ⟨?_, hadd.value⟩
    simp only [expr, add, ← h.local? scope x, ← h.graph.size]
    exact hflow
  | .binary id op left right, .binary id' _ left' right', s, t, halike, hids, h => by
    simp only [Expr.alike, Bool.and_eq_true, beq_iff_eq] at halike
    obtain ⟨⟨rfl, hleft⟩, hright⟩ := halike
    have hl := agrees_expr scope hleft (hids.child (i := 0) rfl rfl) h
    have hr := agrees_expr scope hright (hids.child (i := 1) rfl rfl) hl.state
    exact agrees_apply hr.state hids.root (Corresponds.builtin? (.ofOperator op))
      (by rw [hl.value, hr.value])
  | .negate id operand, .negate id' operand', s, t, halike, hids, h => by
    have hoperand : operand.alike operand' = true := halike
    have ho := agrees_expr scope hoperand (hids.child (i := 0) rfl rfl) h
    exact agrees_apply ho.state hids.root (Corresponds.builtin? .negate) (by rw [ho.value])
  | .call id f args, .call id' _ args', s, t, halike, hids, h => by
    simp only [Expr.alike, Bool.and_eq_true, beq_iff_eq] at halike
    obtain ⟨rfl, hargs⟩ := halike
    have ha := agrees_exprs scope hargs (Expr.relatedAll_operands hids) h
    exact agrees_apply ha.state hids.root (fun h => h.function? scope f) ha.value

theorem agrees_exprs (scope : ScopeId) : ∀ {es es' : List Expr} {s t : Inference},
    Expr.alikeAll es es' = true → Expr.RelatedAll R es es' → s.Corresponds R t →
      Agrees R (exprs scope s es) (exprs scope t es')
  | [], [], _, _, _, _, h => ⟨h, rfl⟩
  | e :: rest, e' :: rest', s, t, halike, hids, h => by
    obtain ⟨he, hrest⟩ := Bool.and_eq_true_iff.mp halike
    have hfirst := agrees_expr scope he (hids 0 e e' rfl rfl) h
    have hmore := agrees_exprs scope hrest (fun i => hids (i + 1)) hfirst.state
    exact ⟨hmore.state, congrArg₂ List.cons hfirst.value hmore.value⟩

end

/-! ### Statements -/

/-- Parameters in the same place have related ids. -/
theorem agrees_params (body : ScopeId) : ∀ {ps ps' : List Param} {s t : Inference},
    ps.map Param.name = ps'.map Param.name →
      (∀ (i : Nat) p p', ps[i]? = some p → ps'[i]? = some p' → R p.id p'.id) → s.Corresponds R t →
        Agrees R (params body s ps) (params body t ps')
  | [], [], _, _, _, _, h => ⟨h, rfl⟩
  | p :: rest, p' :: rest', s, t, hnames, hids, h => by
    obtain ⟨hname, hnames⟩ := List.cons.inj hnames
    have hadd := h.add .unknown (.some (hids 0 p p' rfl rfl))
    have hset := hadd.state.setLocal body p.name s.graph.size
    have hrest := agrees_params body hnames (fun i => hids (i + 1)) hset
    simp only [params, add, ← hname, ← h.graph.size]
    exact ⟨hrest.state, congrArg₂ List.cons rfl hrest.value⟩

end Inference

mutual

theorem Stmt.scopeCount_of_alike : ∀ {s s' : Stmt}, s.alike s' = true → s.scopeCount = s'.scopeCount
  | .define _ _ _ _ _, .define _ _ _ _ _, h => by
    rw [Stmt.scopeCount, Stmt.scopeCount, Stmt.scopeCountAll_of_alike (Bool.and_eq_true_iff.mp h).2]
  | .assign _ _ _, .assign _ _ _, _ => rfl
  | .expr _, .expr _, _ => rfl

theorem Stmt.scopeCountAll_of_alike : ∀ {ss ss' : List Stmt}, Stmt.alikeAll ss ss' = true →
    Stmt.scopeCountAll ss = Stmt.scopeCountAll ss'
  | [], [], _ => rfl
  | _ :: _, _ :: _, h => by
    obtain ⟨hs, hrest⟩ := Bool.and_eq_true_iff.mp h
    rw [Stmt.scopeCountAll, Stmt.scopeCountAll, Stmt.scopeCount_of_alike hs,
      Stmt.scopeCountAll_of_alike hrest]

end

namespace Inference

mutual

theorem agrees_stmtIn : ∀ (scope next : ScopeId) {stmt stmt' : Stmt} {s t : Inference},
    stmt.alike stmt' = true → Node.Related R stmt.node stmt'.node → s.Corresponds R t →
      Agrees R (stmtIn scope next s stmt) (stmtIn scope next t stmt')
  | scope, next, .define id f ps bodyId body, .define id' _ ps' bodyId' body', s, t, halike, hids,
      h => by
    simp only [Stmt.alike, Bool.and_eq_true, beq_iff_eq] at halike
    obtain ⟨⟨rfl, hnames⟩, hbody⟩ := halike
    have hid : R id id' := hids.root
    have hbodyId : R bodyId bodyId' := (hids.child (i := 1) rfl rfl).root
    have hparamIds : ∀ (i : Nat) (p p' : Param), ps.params[i]? = some p → ps'.params[i]? = some p' →
        R p.id p'.id := by
      intro i p p' hp hp'
      have hchild : (Node.params ps).children[i]? = some (.param p) := by
        rw [Node.children, List.getElem?_map, hp, Option.map_some]
      have hchild' : (Node.params ps').children[i]? = some (.param p') := by
        rw [Node.children, List.getElem?_map, hp', Option.map_some]
      exact ((hids.child (i := 0) rfl rfl).child hchild hchild').root
    simp only [stmtIn]
    have hstart := h.add .undefined (.some hid)
    -- the parameters
    have hparams := agrees_params next hnames hparamIds hstart.state
    generalize params next (s.add .undefined (some id)).1 ps.params = p,
      params next (t.add .undefined (some id')).1 ps'.params = q at hparams ⊢
    rw [← hparams.value]
    -- the function itself
    have hdefine := hparams.state.define scope f p.2
    generalize p.1.define scope f p.2 = d, q.1.define scope f p.2 = d' at hdefine ⊢
    -- the list of its statements
    have hlist := hdefine.state.add .unknown (.some hbodyId)
    have hstmts := agrees_stmtsIn next (next + 1) none hbody
      (Stmt.relatedAll_block (hids.child (i := 1) rfl rfl)) hlist.state
    rw [← hstmts.value, ← hlist.value, ← hdefine.value]
    exact ⟨(hstmts.state.flowFrom? _ _).flow _ _, hstart.value⟩
  | scope, next, .assign id x value, .assign id' _ value', s, t, halike, hids, h => by
    simp only [Stmt.alike, Bool.and_eq_true, beq_iff_eq] at halike
    obtain ⟨rfl, hvalue⟩ := halike
    have hid : R id id' := hids.root
    have hstart := h.add .undefined (.some hid)
    have hexpr := agrees_expr scope hvalue (hids.child (i := 0) rfl rfl) hstart.state
    have htarget := hexpr.state.add .unknown (.none : Option.Rel R none none)
    refine ⟨?_, hstart.value⟩
    simp only [stmtIn]
    rw [← hexpr.value, ← htarget.value]
    exact (htarget.state.flow _ _).setLocal scope x _
  | scope, next, .expr e, .expr e', s, t, halike, hids, h => by
    have he : e.alike e' = true := halike
    exact agrees_expr scope he hids h

theorem agrees_stmtsIn : ∀ (scope next : ScopeId) (last : Option VertexId) {ss ss' : List Stmt}
    {s t : Inference}, Stmt.alikeAll ss ss' = true → Stmt.RelatedAll R ss ss' → s.Corresponds R t →
      Agrees R (stmtsIn scope next s last ss) (stmtsIn scope next t last ss')
  | _, _, _, [], [], _, _, _, _, h => ⟨h, rfl⟩
  | scope, next, last, first :: rest, first' :: rest', s, t, halike, hids, h => by
    obtain ⟨hs, hrest⟩ := Bool.and_eq_true_iff.mp halike
    have hfirst := agrees_stmtIn scope next hs (hids 0 first first' rfl rfl) h
    have hmore := agrees_stmtsIn scope (next + first.scopeCount)
      (some (stmtIn scope next s first).2) hrest (fun i => hids (i + 1)) hfirst.state
    simp only [stmtsIn]
    rw [← Stmt.scopeCount_of_alike hs, ← hfirst.value]
    exact hmore

end

/-! ### Programs -/

end Inference

namespace Scopes

mutual

theorem addStmt_of_alike (scope : ScopeId) : ∀ {s t : Scopes} {stmt stmt' : Stmt},
    stmt.alike stmt' = true → s.scopes = t.scopes →
      (addStmt scope s stmt).scopes = (addStmt scope t stmt').scopes
  | s, t, .define _ _ _ _ _, .define _ _ _ _ _, halike, h => by
    unfold addStmt
    simp only [place, h]
    refine addStmts_of_alike _ (Bool.and_eq_true_iff.mp halike).2 ?_
    simp only [openScope]
  | _, _, .assign _ _ _, .assign _ _ _, _, h => h
  | _, _, .expr _, .expr _, _, h => h

theorem addStmts_of_alike (scope : ScopeId) : ∀ {s t : Scopes} {stmts stmts' : List Stmt},
    Stmt.alikeAll stmts stmts' = true → s.scopes = t.scopes →
      (addStmts scope s stmts).scopes = (addStmts scope t stmts').scopes
  | _, _, [], [], _, h => h
  | _, _, _ :: _, _ :: _, halike, h => by
    obtain ⟨hs, hrest⟩ := Bool.and_eq_true_iff.mp halike
    unfold addStmts
    exact addStmts_of_alike scope hrest (addStmt_of_alike scope hs h)

end

theorem ofProgram_of_alike {p q : Program} (halike : p.alike q = true) :
    (ofProgram p).scopes = (ofProgram q).scopes :=
  addStmts_of_alike 0 halike rfl

end Scopes

namespace Inference

/-- The vertices of the built-in functions stand for no node. -/
theorem node_start (scopes : Scopes) : ∀ r ∈ (start scopes).graph.vertices.toList, r.node = none := by
  have hgraph : (start scopes).graph = (start .empty).graph := rfl
  rw [hgraph]
  decide

theorem corresponds_start {scopes scopes' : Scopes} (h : scopes.scopes = scopes'.scopes) :
    (start scopes).Corresponds R (start scopes') where
  graph := by
    have hgraph : (start scopes').graph = (start scopes).graph := rfl
    rw [hgraph]
    refine ⟨rfl, List.forall₂_same.mpr fun r hr => ⟨rfl, ?_⟩⟩
    rw [node_start scopes r hr]
    exact .none
  scopes := h
  builtins := rfl

theorem endsInDefine_of_alike : ∀ {ss ss' : List Stmt}, Stmt.alikeAll ss ss' = true →
    endsInDefine ss = endsInDefine ss'
  | [], [], _ => rfl
  | [s], [s'], h => by
    obtain ⟨hs, -⟩ := Bool.and_eq_true_iff.mp h
    cases s <;> cases s' <;> first | rfl | cases hs
  | [_], _ :: _ :: _, h => by cases (Bool.and_eq_true_iff.mp h).2
  | _ :: _ :: _, [_], h => by cases (Bool.and_eq_true_iff.mp h).2
  | s :: t :: rest, s' :: t' :: rest', h => by
    have hrest := endsInDefine_of_alike (Bool.and_eq_true_iff.mp h).2
    simpa only [endsInDefine, List.getLast?_cons_cons] using hrest

/-- The walks over programs that are alike and have different ids correspond. -/
theorem corresponds_ofProgram {p q : Program} (halike : p.alike q = true)
    (hids : Node.Related R (.program p) (.program q)) (hp : p.nodeIds.Nodup) (hq : q.nodeIds.Nodup) :
    (ofProgram p).Corresponds R (ofProgram q) := by
  rw [ofProgram_eq hp, ofProgram_eq hq]
  have hblock : Node.Related R (.block p.body) (.block q.body) := hids.child (i := 0) rfl rfl
  have hstart : (start (.ofProgram p)).Corresponds R (start (.ofProgram q)) :=
    corresponds_start (Scopes.ofProgram_of_alike halike)
  have hbegin : Agrees R (begin p) (begin q) := hstart.add .unknown (.some hblock.root)
  have hstmts := agrees_stmtsIn 0 1 none halike (Stmt.relatedAll_block hblock) hbegin.state
  rw [finish, finish, ← hstmts.value, ← hbegin.value, endsInDefine_of_alike halike]
  have hlast := hstmts.state.flowFrom? (stmtsIn 0 1 (begin p).1 none p.stmts).2 (begin p).2
  split
  · exact hlast
  · have hid : R p.id q.id := hids.root
    have hresult := hlast.add .number (.some hid)
    simp only [← hresult.value]
    exact hresult.state.flow _ _

end Inference

/-! ## The search -/

namespace FlowGraph.Corresponds

variable {g g' : FlowGraph} (h : g.Corresponds R g')
include h

/-- Vertices of one number correspond. -/
theorem vertex (v : VertexId) : Option.Rel (Vertex.Corresponds R) g.vertices[v]? g'.vertices[v]? := by
  rw [← Array.getElem?_toList, ← Array.getElem?_toList]
  have hvertices := h.vertices
  generalize g.vertices.toList = rs, g'.vertices.toList = rs' at hvertices
  induction hvertices generalizing v with
  | nil => exact .none
  | cons hfirst _ ih =>
    cases v with
    | zero => exact .some hfirst
    | succ v => exact ih v

theorem kind? (v : VertexId) : g.kind? v = g'.kind? v := by
  have hvertex := h.vertex v
  unfold FlowGraph.kind?
  generalize g.vertices[v]? = r, g'.vertices[v]? = r' at hvertex
  cases hvertex with
  | none => rfl
  | some hvertex => exact congrArg some hvertex.kind

theorem visit (kind : Kind) : g.visit kind = g'.visit kind := by
  funext s v
  simp only [FlowGraph.visit, FlowGraph.successors, h.kind?, h.edges]

theorem clashes (source : VertexId) : g.clashes source = g'.clashes source := by
  have hsearch : ∀ kind turns s, g.search kind turns s = g'.search kind turns s := by
    intro kind turns
    induction turns with
    | zero => exact fun _ => rfl
    | succ turns ih =>
      intro s
      simp only [FlowGraph.search, h.visit, ih]
  simp only [FlowGraph.clashes, FlowGraph.successors, h.kind?, h.edges, h.size, hsearch]

end FlowGraph.Corresponds

/-- The same kinds, at no node or at nodes with related ids. -/
structure Mismatch.Corresponds (R : NodeId → NodeId → Prop) (m m' : Mismatch) : Prop where
  expected : m.expected = m'.expected
  found : m.found = m'.found
  node : Option.Rel R m.node m'.node

theorem FlowGraph.Corresponds.mismatch? {g g' : FlowGraph} (h : g.Corresponds R g')
    (source target : VertexId) :
    Option.Rel (Mismatch.Corresponds R) (g.mismatch? source target) (g'.mismatch? source target) := by
  have hsource := h.vertex source
  have htarget := h.vertex target
  unfold FlowGraph.mismatch?
  generalize g.vertices[source]? = lower, g'.vertices[source]? = lower' at hsource
  generalize g.vertices[target]? = upper, g'.vertices[target]? = upper' at htarget
  cases hsource with
  | none => exact .none
  | some hlower =>
    cases htarget with
    | none => exact .none
    | some hupper => exact .some ⟨hlower.kind, hupper.kind, hupper.node⟩

theorem FlowGraph.Corresponds.mismatches {g g' : FlowGraph} (h : g.Corresponds R g') :
    List.Forall₂ (Mismatch.Corresponds R) g.mismatches g'.mismatches := by
  unfold FlowGraph.mismatches
  rw [h.size]
  refine List.rel_flatMap (List.forall₂_same.mpr fun _ _ => rfl) ?_
  rintro source _ rfl
  simp only [h.clashes]
  refine List.rel_filterMap ?_ (List.forall₂_same.mpr fun _ _ => rfl)
  rintro target _ rfl
  exact h.mismatch? source target

/-! ## Places -/

/-- The nodes with these ids stand at one position in both programs. -/
def Program.SamePlace (p q : Program) (id id' : NodeId) : Prop :=
  ∃ path m m', (Node.program p).at? path = some m ∧ (Node.program q).at? path = some m' ∧
    m.label.id = id ∧ m'.label.id = id'

/-- The checks of programs that are alike, each with different ids, find the same at the same places. -/
theorem Program.corresponds_mismatches {p q : Program} (halike : p.alike q = true)
    (hp : p.nodeIds.Nodup) (hq : q.nodeIds.Nodup) :
    List.Forall₂ (Mismatch.Corresponds (p.SamePlace q)) p.mismatches q.mismatches := by
  have hids : Node.Related (p.SamePlace q) (.program p) (.program q) :=
    fun path m m' hm hm' => ⟨path, m, m', hm, hm', rfl, rfl⟩
  exact (Inference.corresponds_ofProgram halike hids hp hq).graph.mismatches

end Abacus
