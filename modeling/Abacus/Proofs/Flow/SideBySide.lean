import Abacus.Proofs.Flow.Growth
import Abacus.Proofs.Flow.Search

/-!
# Two walks side by side

The walk over a folded tree is the walk over the tree, less the vertices of what was folded away
(`Inference.Folds`): its graph lacks some vertices of the other (`FlowGraph.Folds`), and its scopes have
the same variables and functions (`Scopes.Folds`). Every step of the walks keeps this. Either both add
a vertex or an edge that is the same in both, or the walk over the tree that is not folded adds
something that the other lacks.
-/

/-- A relation between what two options hold can be weakened. -/
theorem Option.Rel.mono {α β : Type} {R S : α → β → Prop} (hRS : ∀ a b, R a b → S a b)
    {x : Option α} {y : Option β} (h : Option.Rel R x y) : Option.Rel S x y := by
  cases h with
  | none => exact .none
  | some h => exact .some (hRS _ _ h)

namespace Abacus

/-! ## Graphs side by side -/

namespace FlowGraph

variable {keep keep' : List VertexId} {a b a' b' : FlowGraph}

/-- Edges start at vertices of the graph. -/
def Rooted (g : FlowGraph) : Prop :=
  ∀ edge ∈ g.edges, edge.1 < g.size

theorem Rooted.add {g : FlowGraph} (h : g.Rooted) (kind : Kind) (node : Option NodeId) :
    (g.add kind node).Rooted := fun edge hedge => by
  rw [size_add]
  exact Nat.lt_succ_of_lt (h edge hedge)

theorem Rooted.flow {g : FlowGraph} (h : g.Rooted) {lower : VertexId} (hlower : lower < g.size)
    (upper : VertexId) : (g.flow lower upper).Rooted := fun edge hedge => by
  rcases g.mem_edges_flow.mp hedge with hold | rfl
  · exact h edge hold
  · exact hlower

theorem Rooted.successors_eq_nil {g : FlowGraph} (h : g.Rooted) {v : VertexId} (hv : g.size ≤ v) :
    g.successors v = [] := by
  refine List.eq_nil_iff_forall_not_mem.mpr fun t ht => ?_
  exact absurd (h (v, t) (g.mem_successors.mp ht)) (Nat.not_lt.mpr hv)

theorem successors_flow (g : FlowGraph) (lower upper v : VertexId) :
    (g.flow lower upper).successors v =
      g.successors v ++ if lower = v then [upper] else [] := by
  simp only [successors, flow, Array.toList_push, List.filterMap_append]
  by_cases h : lower = v <;> simp [h]

theorem kind?_of_vertex {g : FlowGraph} {v : VertexId} {r : Vertex} (h : g.vertices[v]? = some r) :
    g.kind? v = some r.kind := by
  rw [kind?, h]
  rfl

theorem kind?_add (g : FlowGraph) (kind : Kind) (node : Option NodeId) :
    (g.add kind node).kind? g.size = some kind :=
  kind?_of_vertex (g.vertex_add kind node)

theorem kind?_add_of_lt {g : FlowGraph} {v : VertexId} (kind : Kind) (node : Option NodeId)
    (h : v < g.size) : (g.add kind node).kind? v = g.kind? v := by
  rw [kind?, vertex_add_of_lt g kind node h, kind?]

theorem getElem?_mono (hkeep : keep <+: keep') {u v : VertexId} (h : keep[v]? = some u) :
    keep'[v]? = some u := by
  obtain ⟨more, rfl⟩ := hkeep
  rw [List.getElem?_append_left (List.getElem?_eq_some_iff.mp h).1, h]

/-- What was the same stays the same if graphs only grow. -/
theorem Same.mono {u v : VertexId} (h : Same keep a b u v) (hkeep : keep <+: keep')
    (ha : ∀ {v : VertexId} {r : Vertex}, a.vertices[v]? = some r → a'.vertices[v]? = some r)
    (hb : ∀ {v : VertexId} {r : Vertex}, b.vertices[v]? = some r → b'.vertices[v]? = some r) :
    Same keep' a' b' u v := by
  obtain ⟨hv, r, hu, hr⟩ := h
  exact ⟨getElem?_mono hkeep hv, r, ha hu, hb hr⟩

namespace Folds

variable (h : Folds keep a b)
include h

theorem lt_right {u v : VertexId} (hv : keep[v]? = some u) : v < b.size := by
  rw [← h.length]
  exact (List.getElem?_eq_some_iff.mp hv).1

/-- The pairs of the list that has one more vertex. -/
theorem pair_add {u v : Nat} (hv : (keep ++ [a.size])[v]? = some u) :
    keep[v]? = some u ∨ u = a.size ∧ v = b.size := by
  by_cases hlt : v < keep.length
  · rw [List.getElem?_append_left hlt] at hv
    exact .inl hv
  · rw [List.getElem?_append_right (Nat.not_lt.mp hlt)] at hv
    obtain ⟨hindex, hu⟩ := List.getElem?_eq_some_iff.mp hv
    rw [List.length_singleton] at hindex
    have hlength := h.length
    refine .inr ⟨?_, by omega⟩
    rw [List.getElem_singleton] at hu
    exact hu.symm

/-- A vertex that is added to both graphs. In the smaller one it may have become a number. -/
theorem add (ha : a.Rooted) (hb : b.Rooted) {kind kind' : Kind} {node node' : Option NodeId}
    (hkind : kind = kind' ∧ node = node' ∨ kind = .unknown ∧ kind' = .number) :
    Folds (keep ++ [a.size]) (a.add kind node) (b.add kind' node') := by
  have hmono : ∀ {u v : VertexId}, Same keep a b u v →
      Same (keep ++ [a.size]) (a.add kind node) (b.add kind' node') u v := fun hsame =>
    hsame.mono (List.prefix_append _ _)
      (fun hr => (a.vertex_add_of_lt _ _ (a.lt_size hr)).trans hr)
      (fun hr => (b.vertex_add_of_lt _ _ (b.lt_size hr)).trans hr)
  have hlast : (keep ++ [a.size])[b.size]? = some a.size := by
    rw [← h.length, List.getElem?_append_right (Nat.le_refl _), Nat.sub_self]
    rfl
  refine ⟨?_, ?_, fun u v hv => ?_, fun u hu hnot => ?_, fun u v hsame hne => ?_⟩
  · rw [List.length_append, List.length_singleton, size_add, h.length]
  · refine List.pairwise_append.mpr ⟨h.sorted, List.pairwise_singleton _ _, fun u hu w hw => ?_⟩
    obtain rfl := List.mem_singleton.mp hw
    exact h.lt_size hu
  · rcases h.pair_add hv with hold | ⟨rfl, rfl⟩
    · rcases h.kept u v hold with hsame | ⟨hunknown, hnumber⟩
      · exact .inl (hmono hsame)
      · rw [kind?_add_of_lt _ _ (a.kind?_lt_size hunknown),
          kind?_add_of_lt _ _ (b.kind?_lt_size hnumber)]
        exact .inr ⟨hunknown, hnumber⟩
    · rcases hkind with ⟨rfl, rfl⟩ | ⟨rfl, rfl⟩
      · exact .inl ⟨hlast, _, a.vertex_add _ _, b.vertex_add _ _⟩
      · exact .inr ⟨a.kind?_add _ _, b.kind?_add _ _⟩
  · rw [size_add] at hu
    rw [List.mem_append, List.mem_singleton, not_or] at hnot
    have hlt : u < a.size := Nat.lt_of_le_of_ne (Nat.lt_succ_iff.mp hu) hnot.2
    rw [kind?_add_of_lt _ _ hlt]
    exact h.dropped u hlt hnot.1
  · rcases h.pair_add hsame.1 with hold | ⟨rfl, rfl⟩
    · obtain ⟨-, r, hu, hv⟩ := hsame
      have hlt := h.lt_size (List.mem_of_getElem? hold)
      rw [a.vertex_add_of_lt _ _ hlt] at hu
      rw [b.vertex_add_of_lt _ _ (h.lt_right hold)] at hv
      rw [kind?_add_of_lt _ _ hlt] at hne
      exact (h.successors u v ⟨hold, r, hu, hv⟩ hne).imp fun _ _ => hmono
    · have hleft : (a.add kind node).successors a.size = [] := ha.successors_eq_nil (Nat.le_refl _)
      have hright : (b.add kind' node').successors b.size = [] :=
        hb.successors_eq_nil (Nat.le_refl _)
      rw [hleft, hright]
      exact .nil

theorem not_mem : a.size ∉ keep := fun hmem =>
  Nat.lt_irrefl _ (h.lt_size hmem)

/-- An unknown vertex or a number that only the larger graph has. -/
theorem drop {kind : Kind} (node : Option NodeId) (hkind : kind = .unknown ∨ kind = .number) :
    Folds keep (a.add kind node) b := by
  have hmono : ∀ {u v : VertexId}, Same keep a b u v → Same keep (a.add kind node) b u v :=
    fun hsame => hsame.mono (List.prefix_refl _)
      (fun hr => (a.vertex_add_of_lt _ _ (a.lt_size hr)).trans hr) id
  refine ⟨h.length, h.sorted, fun u v hv => ?_, fun u hu hnot => ?_, fun u v hsame hne => ?_⟩
  · rcases h.kept u v hv with hsame | ⟨hunknown, hnumber⟩
    · exact .inl (hmono hsame)
    · rw [kind?_add_of_lt _ _ (a.kind?_lt_size hunknown)]
      exact .inr ⟨hunknown, hnumber⟩
  · rw [size_add] at hu
    rcases Nat.lt_succ_iff_lt_or_eq.mp hu with hlt | rfl
    · rw [kind?_add_of_lt _ _ hlt]
      exact h.dropped u hlt hnot
    · rw [kind?_add]
      exact hkind.imp (congrArg some) (congrArg some)
  · obtain ⟨hv, r, hu, hr⟩ := hsame
    have hlt := h.lt_size (List.mem_of_getElem? hv)
    rw [a.vertex_add_of_lt _ _ hlt] at hu
    rw [kind?_add_of_lt _ _ hlt] at hne
    exact (h.successors u v ⟨hv, r, hu, hr⟩ hne).imp fun _ _ => hmono

/-- An edge from a vertex that both graphs have to one that is the same in both. -/
theorem flow {u v u' v' : VertexId} (hlower : keep[v]? = some u) (hupper : Same keep a b u' v') :
    Folds keep (a.flow u u') (b.flow v v') := by
  refine ⟨h.length, h.sorted, h.kept, h.dropped, fun w x hsame hkind => ?_⟩
  have hold := h.successors w x hsame hkind
  have hif : u = w ↔ v = x := by
    constructor
    · rintro rfl
      exact h.injective hlower hsame.1
    · rintro rfl
      exact Option.some.inj (hlower.symm.trans hsame.1)
  rw [successors_flow, successors_flow]
  refine List.rel_append hold ?_
  by_cases heq : u = w
  · rw [if_pos heq, if_pos (hif.mp heq)]
    exact .cons hupper .nil
  · rw [if_neg heq, if_neg fun hv => heq (hif.mpr hv)]
    exact .nil

/-- An edge that only the larger graph has, from a number or from a vertex that only it has. -/
theorem flowDropped {u : VertexId} (hlower : u ∉ keep ∨ a.kind? u = some .number) (u' : VertexId) :
    Folds keep (a.flow u u') b := by
  refine ⟨h.length, h.sorted, h.kept, h.dropped, fun w x hsame hkind => ?_⟩
  have hne : u ≠ w := by
    rintro rfl
    rcases hlower with hnot | hnumber
    · exact hnot (List.mem_of_getElem? hsame.1)
    · exact hkind hnumber
  rw [successors_flow, if_neg hne, List.append_nil]
  exact h.successors w x hsame hkind

end Folds
end FlowGraph

/-! ## Scopes side by side -/

/-- The later lists and graphs have all that the earlier ones have. -/
structure FlowGraph.Extends (keep keep' : List VertexId) (a b a' b' : FlowGraph) : Prop where
  keep : keep <+: keep'
  left : ∀ {v : VertexId} {r : Vertex}, a.vertices[v]? = some r → a'.vertices[v]? = some r
  right : ∀ {v : VertexId} {r : Vertex}, b.vertices[v]? = some r → b'.vertices[v]? = some r

/-- The parameters and what the functions return are the same vertices. -/
structure Signature.Same (keep : List VertexId) (a b : FlowGraph) (s t : Signature) : Prop where
  params : List.Forall₂ (FlowGraph.Same keep a b) s.params t.params
  returns : FlowGraph.Same keep a b s.returns t.returns

section
variable {keep keep' : List VertexId} {a b a' b' : FlowGraph}

theorem FlowGraph.Extends.same (h : Extends keep keep' a b a' b') {u v : VertexId}
    (huv : Same keep a b u v) : Same keep' a' b' u v :=
  huv.mono h.keep h.left h.right

theorem FlowGraph.Extends.signature (h : Extends keep keep' a b a' b') {s t : Signature}
    (hst : Signature.Same keep a b s t) : Signature.Same keep' a' b' s t :=
  ⟨hst.params.imp fun _ _ => h.same, h.same hst.returns⟩

end

namespace Scopes

/-- The scope around a scope. -/
def parent? (s : Scopes) (k : ScopeId) : Option ScopeId := do
  (← s.scopes[k]?).parent

/-- Both have the same scopes, and these have the same variables and functions. -/
structure Folds (keep : List VertexId) (a b : FlowGraph) (s t : Scopes) : Prop where
  size : s.scopes.size = t.scopes.size
  parents : ∀ k, s.parent? k = t.parent? k
  locals : ∀ k x, Option.Rel (fun u v => keep[v]? = some u) (s.local? k x) (t.local? k x)
  functions : ∀ k f, Option.Rel (Signature.Same keep a b) (s.ownFunction? k f) (t.ownFunction? k f)

theorem functionIn_succ (s : Scopes) (f : String) (depth : Nat) (k : ScopeId) :
    s.functionIn f (depth + 1) k =
      match s.ownFunction? k f with
      | some signature => some signature
      | none => (s.parent? k).bind (s.functionIn f depth) := by
  rw [functionIn]
  unfold ownFunction? parent?
  cases s.scopes[k]? with
  | none => rfl
  | some r =>
    simp only [bind, Option.bind]
    cases r.functions.get? f <;> rfl

theorem parent?_setLocal (s : Scopes) (scope k : ScopeId) (x : String) (v : VertexId) :
    (s.setLocal scope x v).parent? k = s.parent? k :=
  bind_modify Scope.parent s.scopes scope k fun _ => rfl

theorem parent?_define (s : Scopes) (scope k : ScopeId) (f : String) (sig : Signature) :
    (s.define scope f sig).parent? k = s.parent? k :=
  bind_modify Scope.parent s.scopes scope k fun _ => rfl

namespace Folds

variable {keep keep' : List VertexId} {a b a' b' : FlowGraph} {s t : Scopes}

theorem mono (h : s.Folds keep a b t) (hextends : FlowGraph.Extends keep keep' a b a' b') :
    s.Folds keep' a' b' t :=
  ⟨h.size, h.parents,
    fun k x => (h.locals k x).mono fun _ _ => FlowGraph.getElem?_mono hextends.keep,
    fun k f => (h.functions k f).mono fun _ _ => hextends.signature⟩

theorem setLocal (h : s.Folds keep a b t) (scope : ScopeId) (x : String) {u v : VertexId}
    (huv : keep[v]? = some u) : (s.setLocal scope x u).Folds keep a b (t.setLocal scope x v) := by
  refine ⟨?_, fun k => ?_, fun k y => ?_, fun k f => ?_⟩
  · rw [size_setLocal, size_setLocal, h.size]
  · rw [parent?_setLocal, parent?_setLocal, h.parents]
  · rw [local?_setLocal, local?_setLocal, h.size]
    split
    · exact .some huv
    · exact h.locals k y
  · rw [ownFunction?_setLocal, ownFunction?_setLocal]
    exact h.functions k f

theorem define (h : s.Folds keep a b t) (scope : ScopeId) (f : String) {sig sig' : Signature}
    (hsig : sig.Same keep a b sig') : (s.define scope f sig).Folds keep a b (t.define scope f sig') := by
  refine ⟨?_, fun k => ?_, fun k y => ?_, fun k g => ?_⟩
  · rw [size_define, size_define, h.size]
  · rw [parent?_define, parent?_define, h.parents]
  · rw [local?_define, local?_define]
    exact h.locals k y
  · rw [ownFunction?_define, ownFunction?_define, h.size]
    split
    · exact .some hsig
    · exact h.functions k g

theorem function? (h : s.Folds keep a b t) (scope : ScopeId) (f : String) :
    Option.Rel (Signature.Same keep a b) (s.function? scope f) (t.function? scope f) := by
  unfold Scopes.function?
  rw [h.size]
  generalize t.scopes.size = depth
  induction depth generalizing scope with
  | zero => exact .none
  | succ depth ih =>
    rw [functionIn_succ, functionIn_succ, h.parents scope]
    have hown := h.functions scope f
    generalize s.ownFunction? scope f = own, t.ownFunction? scope f = own' at hown
    cases hown with
    | some hsig => exact .some hsig
    | none =>
      cases t.parent? scope with
      | none => exact .none
      | some parent => exact ih parent

end Folds
end Scopes

/-! ## Walks side by side -/

namespace Inference

/-- The walk `t` is the walk `s` less the vertices that are not in the list. -/
structure Folds (keep : List VertexId) (s t : Inference) : Prop where
  graph : s.graph.Folds keep t.graph
  left : s.graph.Rooted
  right : t.graph.Rooted
  scopes : s.scopes.Folds keep s.graph t.graph t.scopes
  builtins : ∀ b, Option.Rel (Signature.Same keep s.graph t.graph) (s.builtins.get? b)
    (t.builtins.get? b)
  /-- Built-in functions return numbers. -/
  numbers : ∀ b sig, s.builtins.get? b = some sig → s.graph.kind? sig.returns = some .number

variable {keep keep' : List VertexId} {s t s' t' : Inference}

theorem Grows.extends (hs : Grows s s') (ht : Grows t t') (hkeep : keep <+: keep') :
    FlowGraph.Extends keep keep' s.graph t.graph s'.graph t'.graph :=
  ⟨hkeep, hs.vertices, ht.vertices⟩

theorem Grows.kind? (h : Grows s s') {v : VertexId} {kind : Kind}
    (hv : s.graph.kind? v = some kind) : s'.graph.kind? v = some kind := by
  obtain ⟨r, hr, rfl⟩ := Option.map_eq_some_iff.mp hv
  exact FlowGraph.kind?_of_vertex (h.vertices hr)

namespace Folds

/-- Both walks add a vertex. In the folded one it may have become a number. -/
theorem addPair (h : Folds keep s t) {kind kind' : Kind} {node node' : Option NodeId}
    (hkind : kind = kind' ∧ node = node' ∨ kind = .unknown ∧ kind' = .number) :
    Folds (keep ++ [s.graph.size]) (s.add kind node).1 (t.add kind' node').1 :=
  have hextends := (Grows.add s kind node).extends (.add t kind' node')
    (List.prefix_append keep [s.graph.size])
  { graph := h.graph.add h.left h.right hkind
    left := h.left.add kind node
    right := h.right.add kind' node'
    scopes := h.scopes.mono hextends
    builtins := fun b => (h.builtins b).mono fun _ _ => hextends.signature
    numbers := fun b sig hsig => (Grows.add s kind node).kind? (h.numbers b sig hsig) }

/-- Both walks add the same vertex. -/
theorem add (h : Folds keep s t) (kind : Kind) (node : Option NodeId) :
    Folds (keep ++ [s.graph.size]) (s.add kind node).1 (t.add kind node).1 :=
  h.addPair (.inl ⟨rfl, rfl⟩)

/-- An operator in the one walk is a literal in the other. -/
theorem addFolded (h : Folds keep s t) (node node' : Option NodeId) :
    Folds (keep ++ [s.graph.size]) (s.add .unknown node).1 (t.add .number node').1 :=
  h.addPair (.inr ⟨rfl, rfl⟩)

/-- The walk over the tree that is not folded adds a vertex. -/
theorem drop (h : Folds keep s t) {kind : Kind} (node : Option NodeId)
    (hkind : kind = .unknown ∨ kind = .number) : Folds keep (s.add kind node).1 t :=
  have hextends := (Grows.add s kind node).extends (.refl t) (List.prefix_refl keep)
  { graph := h.graph.drop node hkind
    left := h.left.add kind node
    right := h.right
    scopes := h.scopes.mono hextends
    builtins := fun b => (h.builtins b).mono fun _ _ => hextends.signature
    numbers := fun b sig hsig => (Grows.add s kind node).kind? (h.numbers b sig hsig) }

/-- Both walks add an edge. -/
theorem flow (h : Folds keep s t) {u v u' v' : VertexId} (hlower : keep[v]? = some u)
    (hupper : FlowGraph.Same keep s.graph t.graph u' v') : Folds keep (s.flow u u') (t.flow v v') :=
  have hextends := (Grows.flow s u u').extends (.flow t v v') (List.prefix_refl keep)
  { graph := h.graph.flow hlower hupper
    left := h.left.flow (h.graph.lt_size (List.mem_of_getElem? hlower)) u'
    right := h.right.flow (h.graph.lt_right hlower) v'
    scopes := h.scopes.mono hextends
    builtins := fun b => (h.builtins b).mono fun _ _ => hextends.signature
    numbers := h.numbers }

/-- The walk over the tree that is not folded adds an edge. -/
theorem flowDropped (h : Folds keep s t) {u : VertexId} (hu : u < s.graph.size)
    (hlower : u ∉ keep ∨ s.graph.kind? u = some .number) (u' : VertexId) :
    Folds keep (s.flow u u') t :=
  have hextends := (Grows.flow s u u').extends (.refl t) (List.prefix_refl keep)
  { graph := h.graph.flowDropped hlower u'
    left := h.left.flow hu u'
    right := h.right
    scopes := h.scopes.mono hextends
    builtins := fun b => (h.builtins b).mono fun _ _ => hextends.signature
    numbers := h.numbers }

theorem setLocal (h : Folds keep s t) (scope : ScopeId) (x : String) {u v : VertexId}
    (huv : keep[v]? = some u) : Folds keep (s.setLocal scope x u) (t.setLocal scope x v) :=
  { h with scopes := h.scopes.setLocal scope x huv }

/-- The vertex that both walks have added last. -/
theorem last (h : Folds keep s t) : (keep ++ [s.graph.size])[t.graph.size]? = some s.graph.size := by
  rw [← h.graph.length, List.getElem?_append_right (Nat.le_refl _), Nat.sub_self]
  rfl

theorem last_same (h : Folds keep s t) (kind : Kind) (node : Option NodeId) :
    FlowGraph.Same (keep ++ [s.graph.size]) (s.add kind node).1.graph (t.add kind node).1.graph
      s.graph.size t.graph.size :=
  ⟨h.last, _, s.graph.vertex_add kind node, t.graph.vertex_add kind node⟩

theorem flowFrom? (h : Folds keep s t) {lower lower' : Option VertexId} {u v : VertexId}
    (hlower : Option.Rel (fun u v => keep[v]? = some u) lower lower')
    (hupper : FlowGraph.Same keep s.graph t.graph u v) :
    Folds keep (s.flowFrom? lower u) (t.flowFrom? lower' v) := by
  cases hlower with
  | none => exact h
  | some hlower => exact h.flow hlower hupper

theorem flowAll {args args' params params' : List VertexId}
    (hparams : List.Forall₂ (FlowGraph.Same keep s.graph t.graph) params params')
    (hargs : List.Forall₂ (fun u v => keep[v]? = some u) args args') (h : Folds keep s t) :
    Folds keep ((args.zip params).foldl (fun s (arg, param) => s.flow arg param) s)
      ((args'.zip params').foldl (fun s (arg, param) => s.flow arg param) t) := by
  induction hargs generalizing params params' s t with
  | nil => exact h
  | cons harg _ ih =>
    cases hparams with
    | nil => exact h
    | cons hparam hparams => exact ih hparams (h.flow harg hparam)

/-- Both walks pass arguments to the same function. -/
theorem apply (h : Folds keep s t) {sig sig' : Option Signature}
    (hsig : Option.Rel (Signature.Same keep s.graph t.graph) sig sig') {args args' : List VertexId}
    (hargs : List.Forall₂ (fun u v => keep[v]? = some u) args args') {u v : VertexId}
    (hresult : FlowGraph.Same keep s.graph t.graph u v) :
    Folds keep (s.apply sig args u) (t.apply sig' args' v) := by
  cases hsig with
  | none => exact h
  | @some f g hsig =>
    have hall := h.flowAll hsig.params hargs
    have hextends := (Grows.flowAll (args.zip f.params) s).extends (.flowAll (args'.zip g.params) t)
      (List.prefix_refl keep)
    exact hall.flow hsig.returns.1 (hextends.same hresult)

/-- The walk over the tree that is not folded passes arguments to a function that returns a number. -/
theorem applyDropped (h : Folds keep s t) {sig : Option Signature}
    (hsig : ∀ f, sig = some f → s.graph.kind? f.returns = some .number) {args : List VertexId}
    (hargs : ∀ u ∈ args, u ∉ keep ∧ u < s.graph.size) (result : VertexId) :
    Folds keep (s.apply sig args result) t := by
  cases sig with
  | none => exact h
  | some f =>
    have hall : ∀ (pairs : List (VertexId × VertexId)) {s : Inference}, Folds keep s t →
        (∀ pair ∈ pairs, pair.1 ∉ keep ∧ pair.1 < s.graph.size) →
          Folds keep (pairs.foldl (fun s (arg, param) => s.flow arg param) s) t := by
      intro pairs
      induction pairs with
      | nil => exact fun h _ => h
      | cons pair rest ih =>
        intro s h hpairs
        obtain ⟨hnot, hlt⟩ := hpairs pair List.mem_cons_self
        exact ih (h.flowDropped hlt (.inl hnot) pair.2) fun other hother =>
          hpairs other (List.mem_cons_of_mem _ hother)
    have hflow := hall (args.zip f.params) h fun pair hpair =>
      hargs _ (List.of_mem_zip hpair).1
    have hnumber := (Grows.flowAll (args.zip f.params) s).kind? (hsig f rfl)
    exact hflow.flowDropped (FlowGraph.kind?_lt_size _ hnumber) (.inr hnumber) result

theorem function? (h : Folds keep s t) (scope : ScopeId) (f : String) :
    Option.Rel (Signature.Same keep s.graph t.graph) (s.function? scope f) (t.function? scope f) := by
  unfold Inference.function?
  cases Builtin.ofName? f with
  | some b => exact h.builtins b
  | none => exact h.scopes.function? scope f

end Folds
end Inference

end Abacus
