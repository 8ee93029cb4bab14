import Abacus.Proofs.Flow.Checked
import Abacus.Proofs.Flow.Folded

/-!
# What flows into statement lists

Into the vertex of a list of statements flows the last of them, and nothing else. `FlowGraph.into` reads
off the edges that lead into the vertices of some lists. The parts of a walk add no such edge
(`Inference.feeds_expr`), but for the last one of a list (`Inference.Feeds.close`), so the edges of a whole
program are those of its lists, innermost first (`Program.into_flowGraph`).
-/
namespace Abacus

/-! ## The lists of a program -/

mutual

/-- The statement lists in a statement, the inner ones first. -/
def Stmt.blocks : Stmt → List Block
  | .define _ _ _ bodyId body => Stmt.blocksAll body ++ [{ id := bodyId, stmts := body }]
  | .assign _ _ _ => []
  | .expr _ => []

def Stmt.blocksAll : List Stmt → List Block
  | [] => []
  | s :: rest => s.blocks ++ Stmt.blocksAll rest

end

def Program.blocks (p : Program) : List Block :=
  Stmt.blocksAll p.stmts ++ [p.body]

mutual

/-- The nodes of a statement into which something besides a list may flow. -/
def Stmt.receivers : Stmt → List NodeId
  | .define _ _ ps _ body => ps.params.map Param.id ++ Stmt.receiversAll body
  | .assign _ _ value => value.nodeIds
  | .expr e => e.nodeIds

def Stmt.receiversAll : List Stmt → List NodeId
  | [] => []
  | s :: rest => s.receivers ++ Stmt.receiversAll rest

end

mutual

theorem Stmt.count_receivers (i : NodeId) : ∀ s : Stmt,
    s.receivers.count i + (s.blocks.map Block.id).count i ≤ s.nodeIds.count i
  | .define id _ ps bodyId body => by
    have hbody := Stmt.count_receiversAll i body
    simp only [receivers, blocks, nodeIds, ParamList.nodeIds, List.map_append, List.map_cons,
      List.map_nil, List.count_append, List.count_cons, List.count_nil]
    omega
  | .assign _ _ value => by
    simp only [receivers, blocks, nodeIds, List.map_nil, List.count_nil, List.count_cons]
    omega
  | .expr e => Nat.le_refl _

theorem Stmt.count_receiversAll (i : NodeId) : ∀ ss : List Stmt,
    (Stmt.receiversAll ss).count i + ((Stmt.blocksAll ss).map Block.id).count i ≤
      (Stmt.nodeIdsAll ss).count i
  | [] => Nat.le_refl _
  | s :: rest => by
    have hs := s.count_receivers i
    have hrest := Stmt.count_receiversAll i rest
    simp only [receiversAll, blocksAll, nodeIdsAll, List.map_append, List.count_append]
    omega

end

mutual

theorem Stmt.blocks_owners : ∀ s : Stmt, ∀ b ∈ s.blocks, b.id ∈ s.owners
  | .define id _ ps bodyId body, b, hb => by
    refine List.mem_cons_of_mem _ (List.mem_append_right _ ?_)
    rcases List.mem_append.mp hb with hinner | hself
    · exact List.mem_cons_of_mem _ (Stmt.blocksAll_owners body b hinner)
    · obtain rfl := List.mem_singleton.mp hself
      exact List.mem_cons_self

theorem Stmt.blocksAll_owners : ∀ ss : List Stmt, ∀ b ∈ Stmt.blocksAll ss, b.id ∈ Stmt.ownersAll ss
  | s :: rest, b, hb =>
    List.mem_append.mpr ((List.mem_append.mp hb).imp (s.blocks_owners b)
      (Stmt.blocksAll_owners rest b))

end

namespace Program

theorem blocks_owners {p : Program} {b : Block} (hb : b ∈ p.blocks) :
    b.id ∈ p.body.id :: Stmt.ownersAll p.stmts := by
  rcases List.mem_append.mp hb with hinner | hself
  · exact List.mem_cons_of_mem _ (Stmt.blocksAll_owners p.stmts b hinner)
  · obtain rfl := List.mem_singleton.mp hself
    exact List.mem_cons_self

variable {p : Program} (h : p.nodeIds.Nodup)
include h

/-- No list is there twice, and nothing but a list has the id of one. -/
theorem count_blocks (i : NodeId) : [p.id].count i + (Stmt.receiversAll p.stmts).count i +
    (p.blocks.map Block.id).count i ≤ 1 := by
  have hle := List.nodup_iff_count_le_one.mp h i
  have hstmts := Stmt.count_receiversAll i p.stmts
  simp only [nodeIds, Block.nodeIds, List.count_cons, List.count_nil] at hle ⊢
  simp only [blocks, List.map_append, List.map_cons, List.map_nil, List.count_append, List.count_cons,
    List.count_nil]
  change _ + _ + _ ≤ 1 at hle
  change _ ≤ (Stmt.nodeIdsAll p.body.stmts).count i at hstmts
  omega

theorem nodup_blocks : (p.blocks.map Block.id).Nodup := by
  refine List.nodup_iff_count_le_one.mpr fun i => ?_
  have hle := count_blocks h i
  omega

theorem not_mem_blocks {i : NodeId} (hi : i = p.id ∨ i ∈ Stmt.receiversAll p.stmts) :
    i ∉ p.blocks.map Block.id := by
  intro hmem
  have hle := count_blocks h i
  have hblock := List.count_pos_iff.mpr hmem
  have hother : 0 < [p.id].count i + (Stmt.receiversAll p.stmts).count i := by
    rcases hi with rfl | hi
    · exact Nat.add_pos_left (List.count_pos_iff.mpr List.mem_cons_self) _
    · exact Nat.add_pos_right _ (List.count_pos_iff.mpr hi)
  omega

end Program
/-! ## Edges into lists -/

namespace FlowGraph

variable {g : FlowGraph} {lists : List NodeId}

/-- An edge by the nodes at its ends, if it leads into the vertex of one of these lists. -/
def into? (g : FlowGraph) (lists : List NodeId) (edge : VertexId × VertexId) :
    Option (Option NodeId × NodeId) :=
  (g.node? edge.2).bind fun id => if id ∈ lists then some (g.node? edge.1, id) else none

/-- The edges into the vertices of these lists, oldest first. -/
def into (g : FlowGraph) (lists : List NodeId) : List (Option NodeId × NodeId) :=
  g.edges.toList.filterMap (g.into? lists)

theorem Stands.node? {id : NodeId} {v : VertexId} (h : g.Stands id v) : g.node? v = some id := by
  obtain ⟨r, hr, hid⟩ := h
  rw [FlowGraph.node?, hr]
  exact hid

theorem node?_add {v : VertexId} (h : g.Exists v) (kind : Kind) (node : Option NodeId) :
    (g.add kind node).node? v = g.node? v := by
  rw [node?, node?, g.vertex_add_of_lt kind node (exists_iff.mp h)]

theorem into_add (hedges : ∀ edge ∈ g.edges, g.Exists edge.1 ∧ g.Exists edge.2) (kind : Kind)
    (node : Option NodeId) : (g.add kind node).into lists = g.into lists := by
  refine List.filterMap_congr fun edge hedge => ?_
  obtain ⟨hlower, hupper⟩ := hedges edge (Array.mem_toList_iff.mp hedge)
  rw [into?, into?, node?_add hlower, node?_add hupper]

theorem into_flow (g : FlowGraph) (lists : List NodeId) (lower upper : VertexId) :
    (g.flow lower upper).into lists = g.into lists ++ (g.into? lists (lower, upper)).toList := by
  have hpush : (g.flow lower upper).edges.toList = g.edges.toList ++ [(lower, upper)] :=
    Array.toList_push
  rw [into, hpush, List.filterMap_append]
  refine congrArg (g.into lists ++ ·) ?_
  change [(lower, upper)].filterMap (g.into? lists) = _
  cases h : g.into? lists (lower, upper) with
  | none => exact List.filterMap_cons_none h
  | some edge => exact List.filterMap_cons_some h

end FlowGraph

/-- The vertex does not stand for one of these lists. -/
def Vertex.Outside (lists : List NodeId) (r : Vertex) : Prop :=
  ∀ id ∈ lists, r.node ≠ some id

theorem FlowGraph.into?_of_outside {g : FlowGraph} {lists : List NodeId} {lower upper : VertexId}
    (h : g.Has (Vertex.Outside lists) upper) : g.into? lists (lower, upper) = none := by
  obtain ⟨r, hr, houtside⟩ := h
  refine Option.bind_eq_none_iff.mpr fun id hid => if_neg fun hmem => houtside id hmem ?_
  rw [node?, hr] at hid
  exact hid

/-! ## The walk -/

namespace Inference

variable {lists : List NodeId} {edges : List (Option NodeId × NodeId)} {s : Inference}

/-- The same without its edges. -/
def unwired (s : Inference) : Inference :=
  { s with graph := { s.graph with edges := #[] } }

/-- These are the edges into the lists so far, and no parameter of a function is a list. -/
structure Feeds (lists : List NodeId) (edges : List (Option NodeId × NodeId)) (s : Inference) :
    Prop where
  inRange : s.InRange
  known : s.unwired.Sound (fun _ => True) (Vertex.Outside lists)
  into : s.graph.into lists = edges

/-- A signature is about vertices only. -/
theorem sound_unwired {F T : Vertex → Prop} {sig : Signature} (h : sig.Sound F T s.unwired.graph) :
    sig.Sound F T s.graph :=
  ⟨h.params, h.returns⟩

namespace Feeds

theorem add (h : s.Feeds lists edges) (kind : Kind) (node : Option NodeId) :
    (s.add kind node).1.Feeds lists edges :=
  { inRange := h.inRange.add kind node
    known := h.known.add kind node
    into := (FlowGraph.into_add (fun edge hedge =>
      ⟨h.inRange.sources edge hedge, h.inRange.targets edge hedge⟩) kind node).trans h.into }

theorem flow (h : s.Feeds lists edges) {lower upper : VertexId} (hlower : s.graph.Exists lower)
    (hupper : s.graph.Has (Vertex.Outside lists) upper) : (s.flow lower upper).Feeds lists edges where
  inRange := h.inRange.flow hlower hupper.exists
  known := h.known
  into := by
    have hflow := s.graph.into_flow lists lower upper
    rw [FlowGraph.into?_of_outside hupper, h.into] at hflow
    exact hflow.trans (List.append_nil edges)

theorem setLocal (h : s.Feeds lists edges) (scope : ScopeId) (x : String) {v : VertexId}
    (hv : s.graph.Exists v) : (s.setLocal scope x v).Feeds lists edges where
  inRange := h.inRange.setLocal scope x hv
  known := h.known.setLocal scope x hv
  into := h.into

theorem flowFrom? (h : s.Feeds lists edges) {lower : Option VertexId} {upper : VertexId}
    (hlower : ∀ v, lower = some v → s.graph.Exists v)
    (hupper : s.graph.Has (Vertex.Outside lists) upper) :
    (s.flowFrom? lower upper).Feeds lists edges := by
  cases lower with
  | none => exact h
  | some lower => exact h.flow (hlower lower rfl) hupper

theorem apply (h : s.Feeds lists edges) {signature : Option Signature} {args : List VertexId}
    {result : VertexId}
    (hsig : ∀ sig, signature = some sig → sig.Sound (fun _ => True) (Vertex.Outside lists) s.graph)
    (hargs : ∀ v ∈ args, s.graph.Exists v) (hresult : s.graph.Has (Vertex.Outside lists) result) :
    (s.apply signature args result).Feeds lists edges :=
  apply_of_flow (fun hs hlower hupper => hs.flow hlower hupper) h hsig hargs hresult

/-- An operator or a call is not a list. -/
theorem applied (h : s.Feeds lists edges) {id : NodeId} (hid : id ∉ lists)
    {signature : Option Signature}
    (hsig : ∀ sig, signature = some sig → sig.Sound (fun _ => True) (Vertex.Outside lists) s.graph)
    {args : List VertexId} (hargs : ∀ v ∈ args, s.graph.Exists v) :
    ((s.add .unknown (some id)).1.apply signature args (s.add .unknown (some id)).2).Feeds lists
      edges := by
  have hgrows := Grows.add s .unknown (some id)
  refine (h.add .unknown (some id)).apply (fun sig hs => hgrows.signature (hsig sig hs))
    (fun v hv => hgrows.has (hargs v hv)) (s.has_add fun i hi heq => ?_)
  exact hid (Option.some.inj heq ▸ hi)

end Feeds

mutual

theorem feeds_expr (scope : ScopeId) : ∀ {s : Inference} (e : Expr), s.Feeds lists edges →
    (∀ id ∈ e.nodeIds, id ∉ lists) → (expr scope s e).1.Feeds lists edges
  | s, .number id _ _, h, _ => h.add .number (some id)
  | s, .var id x, h, hids => by
    have hadd := h.add .unknown (some id)
    refine hadd.flowFrom? (hadd.inRange.locals scope x) (s.has_add fun i hi heq => ?_)
    exact hids id List.mem_cons_self (Option.some.inj heq ▸ hi)
  | s, .binary id op left right, h, hids => by
    obtain ⟨hid, hids⟩ := List.forall_mem_cons.mp hids
    obtain ⟨hleftIds, hrightIds⟩ := List.forall_mem_append.mp hids
    obtain ⟨-, -, hlvertex⟩ := checked_expr scope left h.inRange
    have hleft := feeds_expr scope left h hleftIds
    obtain ⟨-, -, hrvertex⟩ := checked_expr scope right hleft.inRange
    have hright := feeds_expr scope right hleft hrightIds
    refine hright.applied hid (fun sig hsig => sound_unwired (hright.known.builtins _ sig hsig))
      fun v hv => ?_
    rcases List.mem_pair.mp hv with rfl | rfl
    · exact (grows_expr scope _ right).has hlvertex.exists
    · exact hrvertex.exists
  | s, .negate id operand, h, hids => by
    obtain ⟨hid, hids⟩ := List.forall_mem_cons.mp hids
    obtain ⟨-, -, hvertex⟩ := checked_expr scope operand h.inRange
    have hoperand := feeds_expr scope operand h hids
    refine hoperand.applied hid (fun sig hsig => sound_unwired (hoperand.known.builtins _ sig hsig))
      fun v hv => ?_
    rw [List.mem_singleton.mp hv]
    exact hvertex.exists
  | s, .call id f args, h, hids => by
    obtain ⟨hid, hids⟩ := List.forall_mem_cons.mp hids
    obtain ⟨-, -, hvertices⟩ := checked_exprs scope args h.inRange
    have hargs := feeds_exprs scope args h hids
    exact hargs.applied hid (fun sig hsig => sound_unwired (hargs.known.function? hsig)) hvertices

theorem feeds_exprs (scope : ScopeId) : ∀ {s : Inference} (es : List Expr), s.Feeds lists edges →
    (∀ id ∈ Expr.nodeIdsAll es, id ∉ lists) → (exprs scope s es).1.Feeds lists edges
  | _, [], h, _ => h
  | _, e :: rest, h, hids => by
    obtain ⟨heIds, hrestIds⟩ := List.forall_mem_append.mp hids
    exact feeds_exprs scope rest (feeds_expr scope e h heIds) hrestIds

end

theorem feeds_params (body : ScopeId) (ps : List Param) {s : Inference} (h : s.Feeds lists edges)
    (hids : ∀ id ∈ ps.map Param.id, id ∉ lists) :
    (params body s ps).1.Feeds lists edges ∧
      ∀ v ∈ (params body s ps).2, (params body s ps).1.graph.Has (Vertex.Outside lists) v := by
  induction ps generalizing s with
  | nil => exact ⟨h, fun v hv => absurd hv List.not_mem_nil⟩
  | cons p rest ih =>
    obtain ⟨hid, hrestIds⟩ := List.forall_mem_cons.mp hids
    have hvertex : (s.add .unknown (some p.id)).1.graph.Has (Vertex.Outside lists)
        (s.add .unknown (some p.id)).2 :=
      s.has_add fun i hi heq => hid (Option.some.inj heq ▸ hi)
    obtain ⟨hrest, hvertices⟩ :=
      ih ((h.add .unknown (some p.id)).setLocal body p.name hvertex.exists) hrestIds
    exact ⟨hrest, List.forall_mem_cons.mpr ⟨(grows_params body _ rest).has hvertex, hvertices⟩⟩

theorem feeds_define (h : s.Feeds lists edges) (scope : ScopeId) (f : String) {ps : List VertexId}
    (hps : ∀ v ∈ ps, s.graph.Has (Vertex.Outside lists) v) :
    (s.define scope f ps).1.Feeds lists edges ∧
      (s.define scope f ps).1.graph.Has (Vertex.Outside lists) (s.define scope f ps).2.returns := by
  have hplace : Vertex.Outside lists { kind := .unknown, node := none } :=
    fun id _ heq => Option.some_ne_none id heq.symm
  obtain ⟨hknown, hreturns⟩ := sound_define h.known trivial hplace scope f hps
  obtain ⟨hrange, -⟩ := sound_define h.inRange trivial trivial scope f fun v hv => (hps v hv).exists
  have hadd := (h.add .function none).add .unknown none
  exact ⟨⟨hrange, hknown, hadd.into⟩, hreturns⟩

/-- A list with a statement comes to the vertex of its last one. -/
theorem last_stmts {s : Inference} (last : Option VertexId) {ss : List Stmt} {st : Stmt}
    (h : s.InRange) (hst : ss.getLast? = some st) :
    ∃ v, (stmts s last ss).2 = some v ∧ (stmts s last ss).1.graph.Stands st.id v := by
  induction ss generalizing s last with
  | nil => cases hst
  | cons first rest ih =>
    obtain ⟨-, hs, hvertex⟩ := checked_stmt first h
    cases rest with
    | nil =>
      cases hst
      exact ⟨_, rfl, hvertex⟩
    | cons second rest => exact ih (some (stmt s first).2) hs (List.getLast?_cons_cons ▸ hst)

end Inference

/-- What flows into a list. -/
def Block.feed (b : Block) : List (Option NodeId × NodeId) :=
  b.stmts.getLast?.toList.map fun last => (some last.id, b.id)

namespace Inference

variable {lists : List NodeId} {edges : List (Option NodeId × NodeId)} {s : Inference}

/-- The end of a list. -/
theorem Feeds.close {b : Block} {list : VertexId} (hs : s.InRange)
    (h : (stmts s none b.stmts).1.Feeds lists edges)
    (hlist : (stmts s none b.stmts).1.graph.Stands b.id list) (hb : b.id ∈ lists) :
    ((stmts s none b.stmts).1.flowFrom? (stmts s none b.stmts).2 list).Feeds lists
      (edges ++ b.feed) := by
  obtain ⟨-, hrange, hlast⟩ := checked_stmts none b.stmts hs fun v hv =>
    absurd hv.symm (Option.some_ne_none v)
  refine ⟨hrange.flowFrom? hlast fun _ => hlist.exists, ?_, ?_⟩
  · generalize stmts s none b.stmts = walked at *
    cases walked.2 <;> exact h.known
  · unfold Block.feed
    cases hst : b.stmts.getLast? with
    | none =>
      rw [List.getLast?_eq_none_iff] at hst
      rw [hst] at h ⊢
      exact h.into.trans (List.append_nil edges).symm
    | some st =>
      obtain ⟨v, hv, hstands⟩ := last_stmts none hs hst
      have hflow := (stmts s none b.stmts).1.graph.into_flow lists v list
      rw [h.into, FlowGraph.into?, hlist.node?, Option.bind_some, if_pos hb, hstands.node?] at hflow
      rw [hv]
      exact hflow

mutual

theorem feeds_stmt : ∀ {edges : List (Option NodeId × NodeId)} {s : Inference} (st : Stmt),
    s.Feeds lists edges → (∀ id ∈ st.receivers, id ∉ lists) → (∀ b ∈ st.blocks, b.id ∈ lists) →
      (stmt s st).1.Feeds lists (edges ++ st.blocks.flatMap Block.feed)
  | edges, s, .define id f ps bodyId body, h, hids, hblocks => by
    obtain ⟨hpsIds, hbodyIds⟩ := List.forall_mem_append.mp hids
    obtain ⟨hbodyBlocks, hblock⟩ := List.forall_mem_append.mp hblocks
    have hlistId : bodyId ∈ lists := hblock _ List.mem_cons_self
    simp only [stmt, Stmt.blocks, List.flatMap_append, List.flatMap_cons, List.flatMap_nil,
      List.append_nil]
    have hadd := h.add .undefined (some id)
    generalize s.add .undefined (some id) = start at *
    obtain ⟨hparams, hparamVertices⟩ :=
      feeds_params (start.1.scopes.scopeOf bodyId) ps.params hadd hpsIds
    generalize params (start.1.scopes.scopeOf bodyId) start.1 ps.params = withParams at *
    obtain ⟨hdefine, hreturns⟩ := feeds_define hparams (s.scopes.scopeOf id) f hparamVertices
    generalize withParams.1.define (s.scopes.scopeOf id) f withParams.2 = defined at *
    have hlist := hdefine.add .unknown (some bodyId)
    have hvertex : (defined.1.add .unknown (some bodyId)).1.graph.Stands bodyId
        (defined.1.add .unknown (some bodyId)).2 := defined.1.has_add rfl
    have hreturns := (Grows.add defined.1 .unknown (some bodyId)).has hreturns
    generalize defined.1.add .unknown (some bodyId) = withList at *
    have hmade := made_stmts withList.1 none body
    have hbody := feeds_stmts none body hlist hbodyIds hbodyBlocks
    have hvertex := has_of_made hmade hvertex
    have hclose := Feeds.close (b := { id := bodyId, stmts := body }) hlist.inRange hbody hvertex
      hlistId
    have hgrows := Grows.flowFrom? (stmts withList.1 none body).1 (stmts withList.1 none body).2
      withList.2
    rw [← List.append_assoc]
    exact hclose.flow (hgrows.has hvertex.exists) (hgrows.has (has_of_made hmade hreturns))
  | edges, s, .assign id x value, h, hids, _ => by
    simp only [stmt, Stmt.blocks, List.flatMap_nil, List.append_nil]
    have hadd := h.add .undefined (some id)
    generalize s.add .undefined (some id) = start at *
    obtain ⟨-, -, hvalueVertex⟩ := checked_expr (s.scopes.scopeOf id) value hadd.inRange
    have hvalue := feeds_expr (s.scopes.scopeOf id) value hadd hids
    generalize expr (s.scopes.scopeOf id) start.1 value = withValue at *
    have htarget := hvalue.add .unknown none
    have hvertex : (withValue.1.add .unknown none).1.graph.Has (Vertex.Outside lists)
        (withValue.1.add .unknown none).2 := withValue.1.has_add fun _ _ => nofun
    have hvalueVertex := (Grows.add withValue.1 .unknown none).has hvalueVertex.exists
    generalize withValue.1.add .unknown none = withTarget at *
    exact (htarget.flow hvalueVertex hvertex).setLocal _ x hvertex.exists
  | edges, s, .expr e, h, hids, _ => by
    simp only [stmt, Stmt.blocks, List.flatMap_nil, List.append_nil]
    exact feeds_expr (s.scopes.scopeOf e.id) e h hids

theorem feeds_stmts : ∀ {edges : List (Option NodeId × NodeId)} {s : Inference}
    (last : Option VertexId) (ss : List Stmt), s.Feeds lists edges →
      (∀ id ∈ Stmt.receiversAll ss, id ∉ lists) → (∀ b ∈ Stmt.blocksAll ss, b.id ∈ lists) →
        (stmts s last ss).1.Feeds lists (edges ++ (Stmt.blocksAll ss).flatMap Block.feed)
  | edges, _, _, [], h, _, _ => (List.append_nil edges).symm ▸ h
  | _, s, _, first :: rest, h, hids, hblocks => by
    obtain ⟨hfirstIds, hrestIds⟩ := List.forall_mem_append.mp hids
    obtain ⟨hfirstBlocks, hrestBlocks⟩ := List.forall_mem_append.mp hblocks
    have hfirst := feeds_stmt first h hfirstIds hfirstBlocks
    have hrest := feeds_stmts (some (stmt s first).2) rest hfirst hrestIds hrestBlocks
    rw [List.append_assoc, ← List.flatMap_append] at hrest
    exact hrest

end

theorem feeds_start (p : Program) : (start (.ofProgram p)).Feeds lists [] := by
  have hbare := Scopes.bare_ofProgram p
  have hedges := edges_start (.ofProgram p)
  have hunwired : (start (.ofProgram p)).unwired = start (.ofProgram p) := by
    generalize start (.ofProgram p) = s at *
    rw [unwired, ← hedges]
  have hnumber : Vertex.Outside lists { kind := .number, node := none } :=
    fun id _ heq => Option.some_ne_none id heq.symm
  refine ⟨sound_start hbare trivial trivial, ?_, ?_⟩
  · rw [hunwired]
    exact sound_start hbare trivial hnumber
  · rw [FlowGraph.into, hedges]
    rfl

end Inference

namespace Program

variable {p : Program} (h : p.nodeIds.Nodup)
include h

/-- The edges into the lists of a program. -/
theorem into_flowGraph :
    p.flowGraph.into (p.blocks.map Block.id) = p.blocks.flatMap Block.feed := by
  have hlist : p.body.id ∈ p.blocks.map Block.id :=
    List.mem_map_of_mem (List.mem_append_right _ List.mem_cons_self)
  have hbegin : (Inference.begin p).1.Feeds (p.blocks.map Block.id) [] :=
    (Inference.feeds_start p).add .unknown (some p.body.id)
  have hstmts := Inference.feeds_stmts none p.stmts hbegin
    (fun id hid => not_mem_blocks h (.inr hid))
    fun b hb => List.mem_map_of_mem (List.mem_append_left _ hb)
  have hvertex : (Inference.stmts (Inference.begin p).1 none p.stmts).1.graph.Stands p.body.id
      (Inference.begin p).2 :=
    Inference.has_of_made (Inference.made_stmts _ none p.stmts) ⟨_, Inference.vertex_begin p, rfl⟩
  have hclose := hstmts.close hbegin.inRange hvertex hlist
  have hvertex := (Inference.Grows.flowFrom? _ (Inference.stmts (Inference.begin p).1 none p.stmts).2
    (Inference.begin p).2).has hvertex
  have hfeeds : (Inference.ofProgram p).Feeds (p.blocks.map Block.id)
      ((Stmt.blocksAll p.stmts).flatMap Block.feed ++ p.body.feed) := by
    rw [Inference.ofProgram_eq_finish, Inference.finish]
    rw [List.nil_append] at hclose
    rw [Program.stmts] at hclose hvertex ⊢
    generalize Inference.flowFrom? _ _ _ = s at *
    split
    · exact hclose
    · refine (hclose.add .number (some p.id)).flow ((Inference.Grows.add _ _ _).has hvertex.exists)
        (s.has_add fun i hi heq => ?_)
      exact not_mem_blocks h (.inl (Option.some.inj heq).symm) hi
  rw [blocks, List.flatMap_append, List.flatMap_singleton]
  exact hfeeds.into

omit h

/-! ## The graph of a program -/

end Program

/-- Where values at a vertex come from, in the order of the edges. -/
def FlowGraph.predecessors (g : FlowGraph) (v : VertexId) : List VertexId :=
  g.edges.toList.filterMap fun edge => if edge.2 = v then some edge.1 else none

/-- Of edges into lists, the ones that lead into the list with this id. -/
def Block.fed (i : NodeId) (edge : Option NodeId × NodeId) : Option (Option NodeId) :=
  if edge.2 = i then some edge.1 else none

theorem Block.fed_of_ne {i : NodeId} {bs : List Block} (h : ∀ b ∈ bs, b.id ≠ i) :
    (bs.flatMap Block.feed).filterMap (Block.fed i) = [] := by
  refine List.filterMap_eq_nil_iff.mpr fun edge hedge => if_neg ?_
  obtain ⟨b, hb, hfeed⟩ := List.mem_flatMap.mp hedge
  obtain ⟨last, -, rfl⟩ := List.mem_map.mp hfeed
  exact h b hb

/-- Only a list itself feeds its vertex. -/
theorem Block.fed_blocks {bs : List Block} (hnodup : (bs.map Block.id).Nodup) {b : Block}
    (hb : b ∈ bs) : (bs.flatMap Block.feed).filterMap (Block.fed b.id) =
      b.stmts.getLast?.toList.map fun last => some last.id := by
  have hself : b.feed.filterMap (Block.fed b.id) =
      b.stmts.getLast?.toList.map fun last => some last.id := by
    rw [Block.feed, List.filterMap_map, ← List.filterMap_eq_map]
    exact List.filterMap_congr fun last _ => if_pos rfl
  obtain ⟨before, behind, rfl⟩ := List.append_of_mem hb
  rw [List.map_append, List.map_cons, List.nodup_append, List.nodup_cons] at hnodup
  obtain ⟨-, ⟨hbehind, -⟩, hbefore⟩ := hnodup
  have hneBefore : ∀ c ∈ before, c.id ≠ b.id := fun c hc =>
    hbefore _ (List.mem_map_of_mem hc) _ List.mem_cons_self
  have hneBehind : ∀ c ∈ behind, c.id ≠ b.id := fun c hc heq =>
    hbehind (heq ▸ List.mem_map_of_mem hc)
  rw [List.flatMap_append, List.flatMap_cons, List.filterMap_append, List.filterMap_append, hself,
    fed_of_ne hneBefore, fed_of_ne hneBehind, List.nil_append, List.append_nil]

namespace Program

variable {p : Program}

/-- The graph of a program has a place for everything in its tree, and its edges are in order. -/
structure Covered (p : Program) : Prop where
  /-- A node is the program, a parameter list, or one of those that own a vertex. -/
  nodes : p.nodeIds.Perm
    (p.id :: p.body.id :: (Stmt.ownersAll p.stmts ++ Stmt.paramListsAll p.stmts))
  /-- The list of the program, and in its statements all definitions, parameters, lists of a body,
  assignments and expressions own one vertex each. -/
  owners : ∀ id ∈ p.body.id :: Stmt.ownersAll p.stmts, ∃! v, p.flowGraph.node? v = some id
  /-- The program itself owns one unless it ends in a definition. -/
  program : if Inference.endsInDefine p.stmts then ∀ v, p.flowGraph.node? v ≠ some p.id else
    ∃! v, p.flowGraph.node? v = some p.id
  paramLists : ∀ id ∈ Stmt.paramListsAll p.stmts, ∀ v, p.flowGraph.node? v ≠ some id
  /-- The vertices of no node: those of the built-in functions, one for each assignment and two for each
  definition, which is what opens a scope. -/
  nodeless : p.flowGraph.vertices.toList.countP Vertex.nodeless =
    (Builtin.all.map fun b => b.arity + 2).sum + Stmt.assignCountAll p.stmts +
      2 * Stmt.scopeCountAll p.stmts
  edges : ∀ edge ∈ p.flowGraph.edges, edge.1 < p.flowGraph.size ∧ edge.2 < p.flowGraph.size
  /-- No edge is drawn from or to a vertex that is missing at that point. -/
  walk : Inference.Checked.ofProgram p = some (Inference.ofProgram p)
  /-- No missing vertex is looked up in the search for mismatches. -/
  search : FlowGraph.Checked.mismatches p.flowGraph = some p.mismatches
  /-- Into a list flows its last statement, and nothing into an empty one. -/
  lists : ∀ b ∈ p.blocks, ∃ v, p.flowGraph.node? v = some b.id ∧
    (p.flowGraph.predecessors v).map p.flowGraph.node? =
      b.stmts.getLast?.toList.map fun last => some last.id

theorem predecessors_flowGraph (h : p.nodeIds.Nodup) {b : Block} (hb : b ∈ p.blocks) {v : VertexId}
    (hv : p.flowGraph.node? v = some b.id) :
    (p.flowGraph.predecessors v).map p.flowGraph.node? =
      b.stmts.getLast?.toList.map fun last => some last.id := by
  have hmem : b.id ∈ p.blocks.map Block.id := List.mem_map_of_mem hb
  have hvertex : ∀ w, p.flowGraph.node? w = some b.id ↔ w = v := fun w =>
    ⟨fun hw => (FlowGraph.existsUnique_node? (nodup_nodes h) (FlowGraph.mem_nodes.mpr ⟨v, hv⟩)).unique
      hw hv, fun hw => hw ▸ hv⟩
  rw [← Block.fed_blocks (nodup_blocks h) hb, ← into_flowGraph h, FlowGraph.predecessors,
    FlowGraph.into, List.map_filterMap, List.filterMap_filterMap]
  refine List.filterMap_congr fun edge _ => ?_
  by_cases hedge : edge.2 = v
  · rw [if_pos hedge, FlowGraph.into?, (hvertex edge.2).mpr hedge, Option.bind_some, if_pos hmem]
    exact (if_pos rfl).symm
  · rw [if_neg hedge, FlowGraph.into?]
    cases hnode : p.flowGraph.node? edge.2 with
    | none => rfl
    | some i =>
      have hne : i ≠ b.id := fun heq => hedge ((hvertex edge.2).mp (heq ▸ hnode))
      rw [Option.bind_some]
      split
      · exact (if_neg hne).symm
      · rfl

/-- The flow graph of a program with different ids covers its tree and is well formed. -/
theorem covered (h : p.nodeIds.Nodup) : p.Covered := by
  have hnodup := nodup_nodes h
  obtain ⟨hid, hrest⟩ := List.nodup_cons.mp (p.nodeIds_perm.nodup_iff.mp h)
  obtain ⟨hbodyId, hparts⟩ := List.nodup_cons.mp hrest
  obtain ⟨-, -, hdisjoint⟩ := List.nodup_append.mp hparts
  obtain ⟨hchecked, hrange⟩ := Inference.checked_ofProgram p
  have hedges : ∀ edge ∈ p.flowGraph.edges,
      edge.1 < p.flowGraph.size ∧ edge.2 < p.flowGraph.size := fun edge hedge =>
    ⟨FlowGraph.exists_iff.mp (hrange.sources edge hedge),
      FlowGraph.exists_iff.mp (hrange.targets edge hedge)⟩
  exact {
    nodes := p.nodeIds_perm
    owners := fun id hmem => FlowGraph.existsUnique_node? hnodup (mem_nodes_flowGraph.mpr (.inl hmem))
    program := by
      split
      next hend =>
        intro v hv
        rcases mem_nodes_flowGraph.mp (FlowGraph.mem_nodes.mpr ⟨v, hv⟩) with howner | ⟨hnot, -⟩
        · refine hid (List.mem_cons.mpr ((List.mem_cons.mp howner).imp_right ?_))
          exact fun hmem => List.mem_append_left _ hmem
        · exact hnot hend
      next hend =>
        exact FlowGraph.existsUnique_node? hnodup (mem_nodes_flowGraph.mpr (.inr ⟨hend, rfl⟩))
    paramLists := fun id hmem v hv => by
      rcases mem_nodes_flowGraph.mp (FlowGraph.mem_nodes.mpr ⟨v, hv⟩) with howner | ⟨-, rfl⟩
      · rcases List.mem_cons.mp howner with rfl | howner
        · exact hbodyId (List.mem_append_right _ hmem)
        · exact hdisjoint id howner id hmem rfl
      · exact hid (List.mem_cons_of_mem _ (List.mem_append_right _ hmem))
    nodeless := p.nodeless_flowGraph
    edges := hedges
    walk := hchecked
    search := FlowGraph.checked_mismatches fun edge hedge => (hedges edge hedge).2
    lists := fun b hb => by
      have howner : b.id ∈ p.flowGraph.nodes := mem_nodes_flowGraph.mpr (.inl (blocks_owners hb))
      obtain ⟨v, hv⟩ := FlowGraph.mem_nodes.mp howner
      exact ⟨v, hv, predecessors_flowGraph h hb hv⟩ }

/-- `a = 2`, `f(x) = x + a` with an empty definition `g()` in its body, and `f(a)`. -/
def nestedDefinition : Program :=
  .ofStmts [
    .assign unnumbered "a" (.number unnumbered 2 none),
    .define unnumbered "f" { id := unnumbered, params := [{ id := unnumbered, name := "x" }] }
      unnumbered [
        .define unnumbered "g" { id := unnumbered, params := [] } unnumbered [],
        .expr (.binary unnumbered .add (.var unnumbered "x") (.var unnumbered "a"))],
    .expr (.call unnumbered "f" [.var unnumbered "a"])]

/-- Besides the vertices of the built-in functions there are five of no node: the place of `a`, and the
functions `f` and `g` with what they return. -/
theorem covered_nestedDefinition :
    nestedDefinition.nodeIds.Nodup ∧ nestedDefinition.Covered ∧
      nestedDefinition.flowGraph.vertices.toList.countP Vertex.nodeless =
        (Builtin.all.map fun b => b.arity + 2).sum + 5 := by
  have hids : nestedDefinition.nodeIds.Nodup := by decide
  have hcovered := covered hids
  exact ⟨hids, hcovered, hcovered.nodeless⟩

end Program
end Abacus
