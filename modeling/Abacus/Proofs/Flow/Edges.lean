import Abacus.Proofs.Flow.Growth
import Abacus.Proofs.Names.Basic

/-!
# Where the edges of a flow graph lead

Values flow into operators, calls, parameters, the places of variables and statement lists, and into
variables that are bound; nothing flows out of a function itself, nor into any other vertex. Nor does
anything flow out of a statement without a value, unless a list ends in it. `Inference.Sound F T` says
so of a walk under way, for any property `F` of the vertices that something may flow out of and any
property `T` of those that something may flow into. All parts of a walk keep it (`sound_expr`,
`sound_stmtIn`), so it holds of the walk over a program (`sound_walk`) and, for the vertices but the
functions, of its graph (`sound_ofProgram`).

The variables of a scope are at any point the ones that the statements before have bound, and scopes
that are still to be opened have none: this is `Scopes.Ready`.
-/
namespace Abacus

/-! ## Scopes that are ready for a list of statements -/

/-- A scope has these variables, and the `count` scopes from `next` on are there and have none. -/
structure Scopes.Ready (names : List String) (scope next count : Nat) (s : Scopes) : Prop where
  lt : scope < next
  le : next + count ≤ s.scopes.size
  names : ∀ x, s.local? scope x ≠ none ↔ x ∈ names
  fresh : ∀ k, next ≤ k → ∀ x, s.local? k x = none

namespace Inference

variable {names : List String} {scope next count : Nat} {s : Inference}

theorem names_params (ps : List Param) {names : List String} {s : Inference}
    (hlt : scope < s.scopes.scopes.size)
    (h : ∀ x, s.scopes.local? scope x ≠ none ↔ x ∈ names) (x : String) :
    (params scope s ps).1.scopes.local? scope x ≠ none ↔ x ∈ names ∨ x ∈ ps.map Param.name := by
  induction ps generalizing names s with
  | nil => simpa [params] using h x
  | cons p rest ih =>
    have hset : ∀ y, ((s.add .unknown (some p.id)).1.setLocal scope p.name
        s.graph.size).scopes.local? scope y ≠ none ↔ y ∈ p.name :: names := by
      intro y
      rw [setLocal, Scopes.local?_setLocal, List.mem_cons, ← h y]
      by_cases hname : p.name = y
      · simp [hname, add, hlt]
      · simp [hname, Ne.symm hname, add]
    have hsize := ((Grows.add s .unknown (some p.id)).trans
      (.setLocal _ scope p.name s.graph.size)).scopes
    simp only [params]
    refine (ih (hsize ▸ hlt) hset).trans ?_
    rw [List.map_cons, List.mem_cons, List.mem_cons]
    constructor
    · rintro ((hp | hnames) | hrest)
      · exact .inr (.inl hp)
      · exact .inl hnames
      · exact .inr (.inr hrest)
    · rintro (hnames | hp | hrest)
      · exact .inl (.inr hnames)
      · exact .inl (.inl hp)
      · exact .inr hrest

/-- The body of a definition starts with the parameters, in a scope of its own. -/
theorem ready_params (h : s.scopes.Ready names scope next (1 + count)) (ps : ParamList) :
    (params next s ps.params).1.scopes.Ready ps.names next (next + 1) count := by
  obtain ⟨hlt, hle, hnames, hfresh⟩ := h
  refine ⟨by omega, ?_, fun x => ?_, fun k hk x => ?_⟩
  · rw [(grows_params next s ps.params).scopes]
    omega
  · have hnone : ∀ x, s.scopes.local? next x ≠ none ↔ x ∈ [] := by
      intro y
      simp [hfresh next (Nat.le_refl _) y]
    rw [names_params ps.params (by omega) hnone x]
    simp [ParamList.names]
  · have hne : next ≠ k := by omega
    rw [local?_params hne]
    exact hfresh k (by omega) x

theorem ready_define (h : s.scopes.Ready names scope next count) (k : ScopeId) (f : String)
    (ps : List VertexId) : (s.define k f ps).1.scopes.Ready names scope next count := by
  refine ⟨h.lt, ?_, fun x => ?_, fun i hi x => ?_⟩
  · rw [(Grows.define s k f ps).scopes]
    exact h.le
  · exact (Iff.of_eq (congrArg (· ≠ none) (Scopes.local?_define ..))).trans (h.names x)
  · exact (Scopes.local?_define ..).trans (h.fresh i hi x)

theorem names_stmtIn {stmt : Stmt} (h : s.scopes.Ready names scope next (stmt.scopeCount + count))
    (x : String) :
    (stmtIn scope next s stmt).1.scopes.local? scope x ≠ none ↔ x ∈ stmt.binds names := by
  cases stmt with
  | define id f ps bodyId body =>
    have hlt := h.lt
    simp only [stmtIn, flow, scopes_flowFrom?]
    rw [local?_stmtsIn x next (next + 1) _ none body (by omega) (.inl (by omega))]
    simp only [add, define]
    have hne : next ≠ scope := by omega
    rw [Scopes.local?_define, local?_params hne]
    exact h.names x
  | assign id y value =>
    have hlt : scope < s.scopes.scopes.size := by
      have := h.lt
      have := h.le
      omega
    simp only [stmtIn, setLocal, flow, add]
    rw [Scopes.local?_setLocal, scopes_expr, Stmt.binds, List.mem_cons, ← h.names x]
    by_cases hname : y = x
    · simp [hname, hlt]
    · simp [hname, Ne.symm hname]
  | expr e =>
    simp only [stmtIn, scopes_expr]
    exact h.names x

/-- Behind a statement its scope has the variables that it binds as well. -/
theorem ready_stmtIn {stmt : Stmt} (h : s.scopes.Ready names scope next (stmt.scopeCount + count)) :
    (stmtIn scope next s stmt).1.scopes.Ready (stmt.binds names) scope (next + stmt.scopeCount)
      count := by
  have hlt := h.lt
  have hle := h.le
  refine ⟨by omega, ?_, names_stmtIn h, fun k hk x => ?_⟩
  · rw [(grows_stmtIn scope next s stmt).scopes]
    omega
  · rw [local?_stmtIn x scope next s stmt (by omega) (.inr hk)]
    exact h.fresh k (by omega) x

end Inference

/-! ## Sound walks -/

/-- There is a vertex of this number, and the property holds of it. -/
def FlowGraph.Has (g : FlowGraph) (T : Vertex → Prop) (v : VertexId) : Prop :=
  ∃ r, g.vertices[v]? = some r ∧ T r

/-- The vertex may stand for a value. -/
def Vertex.Valued (r : Vertex) : Prop :=
  r.kind ≠ .function

/-- Arguments may flow into the parameters of a signature, and what it returns may flow on. -/
structure Signature.Sound (F T : Vertex → Prop) (g : FlowGraph) (sig : Signature) : Prop where
  params : ∀ v ∈ sig.params, g.Has T v
  returns : g.Has F sig.returns

/-- Edges lead from vertices of which `F` holds into vertices of which `T` holds, and what the walk
knows of variables and functions can be used for such edges. -/
structure Inference.Sound (F T : Vertex → Prop) (s : Inference) : Prop where
  sources : ∀ edge ∈ s.graph.edges, s.graph.Has F edge.1
  targets : ∀ edge ∈ s.graph.edges, s.graph.Has T edge.2
  locals : ∀ k x v, s.scopes.local? k x = some v → s.graph.Has F v
  functions : ∀ k f sig, s.scopes.ownFunction? k f = some sig → sig.Sound F T s.graph
  builtins : ∀ b sig, s.builtins.get? b = some sig → sig.Sound F T s.graph

/-- Whatever has one of these ids and stands for a value may flow on. -/
def Vertex.Flows (F : Vertex → Prop) (ids : List NodeId) : Prop :=
  ∀ id ∈ ids, F { kind := .unknown, node := some id } ∧ F { kind := .number, node := some id }

mutual

/-- The bodies of the definitions in a statement. -/
def Stmt.bodies : Stmt → List (List Stmt)
  | .define _ _ _ _ body => body :: Stmt.bodiesAll body
  | .assign _ _ _ => []
  | .expr _ => []

def Stmt.bodiesAll : List Stmt → List (List Stmt)
  | [] => []
  | s :: rest => s.bodies ++ Stmt.bodiesAll rest

end

/-- The statement has a value, or its vertex may flow on all the same. -/
def Stmt.Flows (F : Vertex → Prop) : Stmt → Prop
  | .define id _ _ _ _ => F { kind := .undefined, node := some id }
  | .assign id _ _ => F { kind := .undefined, node := some id }
  | .expr _ => True

/-- What the last statement of a list comes to may flow on. -/
def Stmt.LastFlows (F : Vertex → Prop) (ss : List Stmt) : Prop :=
  ∀ s, ss.getLast? = some s → s.Flows F

theorem Stmt.LastFlows.tail {F : Vertex → Prop} {s s' : Stmt} {rest : List Stmt}
    (h : Stmt.LastFlows F (s :: s' :: rest)) : Stmt.LastFlows F (s' :: rest) := by
  rwa [LastFlows, List.getLast?_cons_cons] at h

namespace Inference

variable {F T P : Vertex → Prop} {s s' : Inference}

theorem Grows.has (h : Grows s s') {v : VertexId} (hv : s.graph.Has P v) : s'.graph.Has P v :=
  let ⟨r, hr, hP⟩ := hv
  ⟨r, h.vertices hr, hP⟩

theorem Grows.signature (h : Grows s s') {sig : Signature} (hsig : sig.Sound F T s.graph) :
    sig.Sound F T s'.graph :=
  ⟨fun v hv => h.has (hsig.params v hv), h.has hsig.returns⟩

/-- The vertex that is added last. -/
theorem has_add (s : Inference) {kind : Kind} {node : Option NodeId} (h : P { kind, node }) :
    (s.add kind node).1.graph.Has P (s.add kind node).2 :=
  ⟨_, s.graph.vertex_add kind node, h⟩

section
variable {I : Inference → Prop}
  (hflow : ∀ {s lower upper}, I s → s.graph.Has F lower → s.graph.Has T upper → I (s.flow lower upper))
include hflow

theorem flowAll_of_flow {pairs : List (VertexId × VertexId)} {s : Inference} (h : I s)
    (hpairs : ∀ pair ∈ pairs, s.graph.Has F pair.1 ∧ s.graph.Has T pair.2) :
    I (pairs.foldl (fun s (arg, param) => s.flow arg param) s) := by
  induction pairs generalizing s with
  | nil => exact h
  | cons pair rest ih =>
    obtain ⟨⟨harg, hparam⟩, hrest⟩ := List.forall_mem_cons.mp hpairs
    exact ih (hflow h harg hparam) hrest

/-- Applying a function adds edges from arguments and from what it returns into parameters and into
the result, so what such an edge preserves is preserved. -/
theorem apply_of_flow (h : I s) {signature : Option Signature} {args : List VertexId}
    {result : VertexId} (hsig : ∀ sig, signature = some sig → sig.Sound F T s.graph)
    (hargs : ∀ v ∈ args, s.graph.Has F v) (hresult : s.graph.Has T result) :
    I (s.apply signature args result) := by
  cases signature with
  | none => exact h
  | some sig =>
    obtain ⟨hparams, hreturns⟩ := hsig sig rfl
    have hall := Grows.flowAll (args.zip sig.params) s
    refine hflow (flowAll_of_flow hflow h fun pair hpair => ?_) (hall.has hreturns) (hall.has hresult)
    obtain ⟨harg, hparam⟩ := List.of_mem_zip hpair
    exact ⟨hargs _ harg, hparams _ hparam⟩

end

namespace Sound

theorem add (h : s.Sound F T) (kind : Kind) (node : Option NodeId) : (s.add kind node).1.Sound F T :=
  have hgrows := Grows.add s kind node
  { sources := fun edge hedge => hgrows.has (h.sources edge hedge)
    targets := fun edge hedge => hgrows.has (h.targets edge hedge)
    locals := fun k x v hv => hgrows.has (h.locals k x v hv)
    functions := fun k f sig hsig => hgrows.signature (h.functions k f sig hsig)
    builtins := fun b sig hsig => hgrows.signature (h.builtins b sig hsig) }

theorem flow (h : s.Sound F T) {lower upper : VertexId} (hlower : s.graph.Has F lower)
    (hupper : s.graph.Has T upper) : (s.flow lower upper).Sound F T := by
  have hgrows := Grows.flow s lower upper
  refine ⟨fun edge hedge => ?_, fun edge hedge => ?_, h.locals, fun k f sig hsig =>
    hgrows.signature (h.functions k f sig hsig), fun b sig hsig =>
    hgrows.signature (h.builtins b sig hsig)⟩
  · rcases s.graph.mem_edges_flow.mp hedge with hold | rfl
    · exact h.sources edge hold
    · exact hlower
  · rcases s.graph.mem_edges_flow.mp hedge with hold | rfl
    · exact h.targets edge hold
    · exact hupper

theorem flowFrom? (h : s.Sound F T) {lower : Option VertexId} {upper : VertexId}
    (hlower : ∀ v, lower = some v → s.graph.Has F v)
    (hupper : lower ≠ none → s.graph.Has T upper) : (s.flowFrom? lower upper).Sound F T := by
  cases lower with
  | none => exact h
  | some lower => exact h.flow (hlower lower rfl) (hupper nofun)

theorem apply (h : s.Sound F T) {signature : Option Signature} {args : List VertexId}
    {result : VertexId} (hsig : ∀ sig, signature = some sig → sig.Sound F T s.graph)
    (hargs : ∀ v ∈ args, s.graph.Has F v) (hresult : s.graph.Has T result) :
    (s.apply signature args result).Sound F T :=
  apply_of_flow (fun hs hlower hupper => hs.flow hlower hupper) h hsig hargs hresult

theorem setLocal (h : s.Sound F T) (scope : ScopeId) (x : String) {v : VertexId}
    (hv : s.graph.Has F v) : (s.setLocal scope x v).Sound F T := by
  refine ⟨h.sources, h.targets, fun k y w hw => ?_, fun k f sig hsig => ?_, h.builtins⟩
  · rw [Inference.setLocal, Scopes.local?_setLocal] at hw
    split at hw
    · cases hw
      exact hv
    · exact h.locals k y w hw
  · rw [Inference.setLocal, Scopes.ownFunction?_setLocal] at hsig
    exact h.functions k f sig hsig

/-- What a name means as a function. -/
theorem function? (h : s.Sound F T) {scope : ScopeId} {f : String} {sig : Signature}
    (hsig : s.function? scope f = some sig) : sig.Sound F T s.graph := by
  unfold Inference.function? at hsig
  split at hsig
  · exact h.builtins _ sig hsig
  · obtain ⟨k, hk⟩ := s.scopes.ownFunction?_of_function? scope hsig
    exact h.functions k f sig hk

end Sound

/-! ### Expressions -/

/-- What a part of a walk leaves behind if it comes to this vertex. -/
def Leaves (F T : Vertex → Prop) (x : Inference × VertexId) : Prop :=
  x.1.Sound F T ∧ x.1.graph.Has F x.2

/-- An operator or a call receives what its function returns, if it means one. -/
theorem leaves_apply {s : Inference} (h : s.Sound F T) {id : NodeId}
    (hF : F { kind := .unknown, node := some id }) (hT : T { kind := .unknown, node := some id })
    {signature : Option Signature} (hsig : ∀ sig, signature = some sig → sig.Sound F T s.graph)
    {args : List VertexId} (hargs : ∀ v ∈ args, s.graph.Has F v) :
    Leaves F T ((s.add .unknown (some id)).1.apply signature args (s.add .unknown (some id)).2,
      (s.add .unknown (some id)).2) := by
  have hgrows := Grows.add s .unknown (some id)
  refine ⟨(h.add .unknown (some id)).apply (fun sig hs => hgrows.signature (hsig sig hs))
    (fun v hv => hgrows.has (hargs v hv)) (s.has_add hT), ?_⟩
  exact (Grows.apply _ _ _ _).has (s.has_add hF)

mutual

/-- Values flow into the operators and calls of an expression and into its variables that are
bound. -/
theorem sound_expr {scope : ScopeId} {names : List String} : ∀ {s : Inference} {e : Expr},
    s.Sound F T → (∀ x, s.scopes.local? scope x ≠ none → x ∈ names) → Vertex.Flows F e.nodeIds →
      (∀ id ∈ e.settled names, T { kind := .unknown, node := some id }) →
        Leaves F T (expr scope s e)
  | s, .number id _ _, h, _, hF, _ =>
    ⟨h.add .number (some id), s.has_add (hF id List.mem_cons_self).2⟩
  | s, .var id x, h, hnames, hF, hT => by
    have hvertex : (s.add .unknown (some id)).1.graph.Has F (s.add .unknown (some id)).2 :=
      s.has_add (hF id List.mem_cons_self).1
    have hadd := h.add .unknown (some id)
    have hgrows := Grows.flowFrom? (s.add .unknown (some id)).1
      ((s.add .unknown (some id)).1.scopes.local? scope x) (s.add .unknown (some id)).2
    refine ⟨hadd.flowFrom? (hadd.locals scope x) fun hlocal => ?_, hgrows.has hvertex⟩
    refine s.has_add (hT id ?_)
    rw [Expr.settled, if_pos (hnames x hlocal)]
    exact List.mem_singleton.mpr rfl
  | s, .binary id op left right, h, hnames, hF, hT => by
    obtain ⟨hid, hids⟩ := List.forall_mem_cons.mp hF
    obtain ⟨hleftF, hrightF⟩ := List.forall_mem_append.mp hids
    obtain ⟨hleft, hleftVertex⟩ := sound_expr h hnames hleftF fun id hid =>
      hT id (List.mem_cons_of_mem _ (List.mem_append_left _ hid))
    rw [← scopes_expr scope s left] at hnames
    obtain ⟨hright, hrightVertex⟩ := sound_expr hleft hnames hrightF fun id hid =>
      hT id (List.mem_cons_of_mem _ (List.mem_append_right _ hid))
    refine leaves_apply hright hid.1 (hT id List.mem_cons_self) (hright.builtins _) fun v hv => ?_
    rcases List.mem_pair.mp hv with rfl | rfl
    · exact (grows_expr scope _ right).has hleftVertex
    · exact hrightVertex
  | s, .negate id operand, h, hnames, hF, hT => by
    obtain ⟨hid, hids⟩ := List.forall_mem_cons.mp hF
    obtain ⟨hoperand, hvertex⟩ := sound_expr h hnames hids fun id hid =>
      hT id (List.mem_cons_of_mem _ hid)
    refine leaves_apply hoperand hid.1 (hT id List.mem_cons_self) (hoperand.builtins _)
      fun v hv => ?_
    obtain rfl := List.mem_singleton.mp hv
    exact hvertex
  | s, .call id name args, h, hnames, hF, hT => by
    obtain ⟨hid, hids⟩ := List.forall_mem_cons.mp hF
    obtain ⟨hargs, hvertices⟩ := sound_exprs h hnames hids fun id hid =>
      hT id (List.mem_cons_of_mem _ hid)
    exact leaves_apply hargs hid.1 (hT id List.mem_cons_self) (fun sig => hargs.function?) hvertices

theorem sound_exprs {scope : ScopeId} {names : List String} : ∀ {s : Inference} {es : List Expr},
    s.Sound F T → (∀ x, s.scopes.local? scope x ≠ none → x ∈ names) →
      Vertex.Flows F (Expr.nodeIdsAll es) →
        (∀ id ∈ Expr.settledAll names es, T { kind := .unknown, node := some id }) →
          (exprs scope s es).1.Sound F T ∧
            ∀ v ∈ (exprs scope s es).2, (exprs scope s es).1.graph.Has F v
  | s, [], h, _, _, _ => ⟨h, nofun⟩
  | s, e :: rest, h, hnames, hF, hT => by
    obtain ⟨heF, hrestF⟩ := List.forall_mem_append.mp hF
    obtain ⟨he, hvertex⟩ := sound_expr h hnames heF fun id hid =>
      hT id (List.mem_append_left _ hid)
    rw [← scopes_expr scope s e] at hnames
    obtain ⟨hrest, hvertices⟩ := sound_exprs he hnames hrestF fun id hid =>
      hT id (List.mem_append_right _ hid)
    refine ⟨hrest, fun v hv => ?_⟩
    rcases List.mem_cons.mp hv with rfl | hmem
    · exact (grows_exprs scope _ rest).has hvertex
    · exact hvertices v hmem

end

/-! ### Statements -/

theorem sound_params (body : ScopeId) : ∀ (ps : List Param) {s : Inference}, s.Sound F T →
    Vertex.Flows F (ps.map Param.id) →
      (∀ id ∈ ps.map Param.id, T { kind := .unknown, node := some id }) →
        (params body s ps).1.Sound F T ∧
          ∀ v ∈ (params body s ps).2, (params body s ps).1.graph.Has T v
  | [], s, h, _, _ => ⟨h, nofun⟩
  | p :: rest, s, h, hF, hT => by
    obtain ⟨hp, hrestF⟩ := List.forall_mem_cons.mp hF
    have hset := (h.add .unknown (some p.id)).setLocal body p.name (s.has_add hp.1)
    obtain ⟨hrest, hvertices⟩ := sound_params body rest hset hrestF fun id hid =>
      hT id (List.mem_cons_of_mem _ hid)
    refine ⟨hrest, fun v hv => ?_⟩
    rcases List.mem_cons.mp hv with rfl | hmem
    · exact (grows_params body _ rest).has (s.has_add (hT p.id List.mem_cons_self))
    · exact hvertices v hmem

/-- The signature of a definition has the parameters and a new place for what it returns. -/
theorem sound_define (h : s.Sound F T) (hplaceF : F { kind := .unknown, node := none })
    (hplace : T { kind := .unknown, node := none }) (scope : ScopeId) (f : String)
    {ps : List VertexId} (hps : ∀ v ∈ ps, s.graph.Has T v) :
    (s.define scope f ps).1.Sound F T ∧
      (s.define scope f ps).1.graph.Has T (s.define scope f ps).2.returns := by
  have hgraph := (h.add .function none).add .unknown none
  have hgrows := Grows.define s scope f ps
  have hreturns : ∀ {P : Vertex → Prop}, P { kind := .unknown, node := none } →
      (s.define scope f ps).1.graph.Has P (s.define scope f ps).2.returns := by
    intro P hP
    have hlast : ((s.add .function none).1.add .unknown none).1.graph.Has P
        ((s.add .function none).1.add .unknown none).2 := has_add _ hP
    rw [show (s.define scope f ps).2.returns = ((s.add .function none).1.add .unknown none).2 from
      (s.graph.size_add .function none).symm]
    exact hlast
  refine ⟨⟨hgraph.sources, hgraph.targets, fun k x v hv => ?_, fun k g sig hsig => ?_,
    hgraph.builtins⟩, hreturns hplace⟩
  · rw [Inference.define, Scopes.local?_define] at hv
    exact hgraph.locals k x v hv
  · rw [Inference.define, Scopes.ownFunction?_define] at hsig
    split at hsig
    · cases hsig
      exact ⟨fun v hv => hgrows.has (hps v hv), hreturns hplaceF⟩
    · exact hgraph.functions k g sig hsig

mutual

/-- Values flow into the bodies of definitions and out of them, into the places of variables, and
where they flow in expressions. -/
theorem sound_stmtIn (hplaceF : F { kind := .unknown, node := none })
    (hplace : T { kind := .unknown, node := none }) :
    ∀ {names : List String} {scope next count : Nat} {s : Inference} {stmt : Stmt}, s.Sound F T →
      s.scopes.Ready names scope next (stmt.scopeCount + count) → Vertex.Flows F stmt.nodeIds →
        (∀ body ∈ stmt.bodies, Stmt.LastFlows F body) →
          (∀ id ∈ stmt.settled names, T { kind := .unknown, node := some id }) →
            (stmtIn scope next s stmt).1.Sound F T ∧
              (stmt.Flows F → (stmtIn scope next s stmt).1.graph.Has F (stmtIn scope next s stmt).2)
  | names, scope, next, count, s, .define id f ps bodyId body, h, hready, hF, hends, hT => by
    rw [Stmt.scopeCount, Nat.add_assoc] at hready
    obtain ⟨-, hids⟩ := List.forall_mem_cons.mp hF
    obtain ⟨hpsF, hbodyIds⟩ := List.forall_mem_append.mp hids
    obtain ⟨hlistF, hbodyF⟩ := List.forall_mem_cons.mp hbodyIds
    obtain ⟨hend, hbodyEnds⟩ := List.forall_mem_cons.mp hends
    simp only [stmtIn]
    have hvertex : F { kind := .undefined, node := some id } →
        (s.add .undefined (some id)).1.graph.Has F (s.add .undefined (some id)).2 := s.has_add
    have hready : (s.add .undefined (some id)).1.scopes.Ready names scope next _ := hready
    have hadd := h.add .undefined (some id)
    generalize s.add .undefined (some id) = start at *
    -- the parameters, in the scope of the body
    have hgrowsParams := grows_params next start.1 ps.params
    have hbodyReady := ready_params hready ps
    obtain ⟨hparams, hparamVertices⟩ := sound_params next ps.params hadd
      (List.forall_mem_cons.mp hpsF).2
      fun i hi => hT i (List.mem_cons_of_mem _ (List.mem_append_left _ (List.mem_cons_of_mem _ hi)))
    generalize params next start.1 ps.params = withParams at *
    -- the function itself
    have hgrowsDefine := Grows.define withParams.1 scope f withParams.2
    have hbodyReady := ready_define hbodyReady scope f withParams.2
    obtain ⟨hdefine, hreturns⟩ := sound_define hparams hplaceF hplace scope f hparamVertices
    generalize withParams.1.define scope f withParams.2 = defined at *
    -- the list of its statements
    have hlist := hdefine.add .unknown (some bodyId)
    have hlistT := defined.1.has_add (hT bodyId (List.mem_cons_of_mem _
      (List.mem_append_right _ List.mem_cons_self)))
    have hlistFlows := defined.1.has_add hlistF.1
    have hgrowsList := Grows.add defined.1 .unknown (some bodyId)
    have hbodyReady : (defined.1.add .unknown (some bodyId)).1.scopes.Ready _ _ _ _ := hbodyReady
    generalize defined.1.add .unknown (some bodyId) = withList at *
    have hgrowsBody := grows_stmtsIn next (next + 1) withList.1 none body
    obtain ⟨hbody, hlast⟩ := sound_stmtsIn hplaceF hplace none hlist hbodyReady hbodyF hbodyEnds
      fun i hi =>
        hT i (List.mem_cons_of_mem _ (List.mem_append_right _ (List.mem_cons_of_mem _ hi)))
    have hlast := hlast hend nofun
    generalize stmtsIn next (next + 1) withList.1 none body = withBody at *
    have hgrowsLast := Grows.flowFrom? withBody.1 withBody.2 withList.2
    have hflow := hbody.flowFrom? hlast fun _ => hgrowsBody.has hlistT
    refine ⟨hflow.flow (hgrowsLast.has (hgrowsBody.has hlistFlows))
      (hgrowsLast.has (hgrowsBody.has (hgrowsList.has hreturns))), fun hid => ?_⟩
    exact (Grows.flow _ _ _).has <| hgrowsLast.has <| hgrowsBody.has <| hgrowsList.has <|
      hgrowsDefine.has <| hgrowsParams.has (hvertex hid)
  | names, scope, next, count, s, .assign id x value, h, hready, hF, _, hT => by
    simp only [stmtIn]
    have hvertex : F { kind := .undefined, node := some id } →
        (s.add .undefined (some id)).1.graph.Has F (s.add .undefined (some id)).2 := s.has_add
    have hnames : ∀ x, (s.add .undefined (some id)).1.scopes.local? scope x ≠ none → x ∈ names :=
      fun x => (hready.names x).mp
    have hadd := h.add .undefined (some id)
    generalize s.add .undefined (some id) = start at *
    have hgrowsValue := grows_expr scope start.1 value
    obtain ⟨hvalue, hvalueVertex⟩ := sound_expr hadd hnames (List.forall_mem_cons.mp hF).2
      fun i hi => hT i (List.mem_cons_of_mem _ hi)
    generalize expr scope start.1 value = withValue at *
    have htarget := hvalue.add .unknown none
    have htargetT := withValue.1.has_add hplace
    have htargetFlows := withValue.1.has_add hplaceF
    have hgrowsTarget := Grows.add withValue.1 .unknown none
    generalize withValue.1.add .unknown none = withTarget at *
    have hgrowsFlow := Grows.flow withTarget.1 withValue.2 withTarget.2
    have hflow := htarget.flow (hgrowsTarget.has hvalueVertex) htargetT
    refine ⟨hflow.setLocal scope x (hgrowsFlow.has htargetFlows), fun hid => ?_⟩
    exact (Grows.setLocal _ _ _ _).has <| hgrowsFlow.has <| hgrowsTarget.has <|
      hgrowsValue.has (hvertex hid)
  | names, scope, next, count, s, .expr e, h, hready, hF, _, hT => by
    obtain ⟨hexpr, hvertex⟩ := sound_expr h (fun x => (hready.names x).mp) hF hT
    exact ⟨hexpr, fun _ => hvertex⟩

theorem sound_stmtsIn (hplaceF : F { kind := .unknown, node := none })
    (hplace : T { kind := .unknown, node := none }) :
    ∀ {names : List String} {scope next count : Nat} {s : Inference} (last : Option VertexId)
      {ss : List Stmt}, s.Sound F T →
        s.scopes.Ready names scope next (Stmt.scopeCountAll ss + count) →
          Vertex.Flows F (Stmt.nodeIdsAll ss) →
            (∀ body ∈ Stmt.bodiesAll ss, Stmt.LastFlows F body) →
              (∀ id ∈ Stmt.settledAll names ss, T { kind := .unknown, node := some id }) →
                (stmtsIn scope next s last ss).1.Sound F T ∧
                  (Stmt.LastFlows F ss → (∀ v, last = some v → ss = [] → s.graph.Has F v) →
                    ∀ v, (stmtsIn scope next s last ss).2 = some v →
                      (stmtsIn scope next s last ss).1.graph.Has F v)
  | _, _, _, _, s, last, [], h, _, _, _, _ => ⟨h, fun _ hlast v hv => hlast v hv rfl⟩
  | names, scope, next, count, s, last, first :: rest, h, hready, hF, hends, hT => by
    rw [Stmt.scopeCountAll, Nat.add_assoc] at hready
    obtain ⟨hfirstF, hrestF⟩ := List.forall_mem_append.mp hF
    obtain ⟨hfirstEnds, hrestEnds⟩ := List.forall_mem_append.mp hends
    obtain ⟨hfirst, hvertex⟩ := sound_stmtIn hplaceF hplace h hready hfirstF hfirstEnds fun i hi =>
      hT i (List.mem_append_left _ hi)
    obtain ⟨hrest, hlast⟩ := sound_stmtsIn hplaceF hplace
      (some (stmtIn scope next s first).2) hfirst (ready_stmtIn hready) hrestF hrestEnds
      fun i hi => hT i (List.mem_append_right _ hi)
    refine ⟨hrest, fun hend _ => hlast ?_ ?_⟩
    · cases rest with
      | nil => exact nofun
      | cons second rest => exact hend.tail
    · rintro v hv rfl
      cases hv
      exact hvertex (hend first rfl)

end

end Inference

/-! ### Built-in functions -/

namespace Signature

theorem vertices_addParams (kind : Kind) (count : Nat) (g : FlowGraph) :
    (addParams g kind count).vertices =
      g.vertices ++ Array.replicate count { kind, node := none } := by
  induction count generalizing g with
  | zero => simp [addParams]
  | succ count ih =>
    rw [addParams, ih, FlowGraph.add, Array.push_eq_append, Array.append_assoc,
      ← Array.replicate_one, Array.replicate_append_replicate, Nat.add_comm]

theorem edges_addParams (kind : Kind) (count : Nat) (g : FlowGraph) :
    (addParams g kind count).edges = g.edges := by
  induction count generalizing g with
  | zero => rfl
  | succ count ih => rw [addParams, ih, FlowGraph.add]

theorem edges_builtin (g : FlowGraph) (b : Builtin) : (builtin g b).1.edges = g.edges :=
  edges_addParams .number b.arity (g.add .function none)

/-- A built-in function adds itself, its parameters and what it returns. -/
theorem vertices_builtin (g : FlowGraph) (b : Builtin) :
    (builtin g b).1.vertices = g.vertices ++ (#[{ kind := .function, node := none }] ++
      Array.replicate (b.arity + 1) { kind := .number, node := none }) := by
  rw [builtin, FlowGraph.add, vertices_addParams, FlowGraph.add, Array.push_eq_append,
    Array.push_eq_append, Array.replicate_succ, Array.push_eq_append]
  simp only [Array.append_assoc]

theorem vertex_builtin_of_lt {g : FlowGraph} (b : Builtin) {v : VertexId} (h : v < g.size) :
    (builtin g b).1.vertices[v]? = g.vertices[v]? := by
  rw [vertices_builtin]
  exact Array.getElem?_append_left h

/-- The parameters of a built-in function and what it returns are numbers. -/
theorem number_builtin {g : FlowGraph} {b : Builtin} {v : VertexId}
    (h : v ∈ (builtin g b).2.params ∨ v = (builtin g b).2.returns) :
    (builtin g b).1.vertices[v]? = some { kind := .number, node := none } := by
  have hrange : ∃ i, i < b.arity + 1 ∧ v = g.size + 1 + i := by
    rcases h with hparam | hreturns
    · obtain ⟨i, hi, rfl⟩ := List.mem_map.mp hparam
      exact ⟨i, Nat.lt_succ_of_lt (List.mem_range.mp hi), rfl⟩
    · exact ⟨b.arity, Nat.lt_succ_self _, hreturns⟩
  obtain ⟨i, hi, rfl⟩ := hrange
  have hsize : g.size = g.vertices.size := rfl
  have hone : (#[{ kind := .function, node := none }] : Array Vertex).size = 1 := rfl
  rw [vertices_builtin, Array.getElem?_append_right (by omega),
    Array.getElem?_append_right (by omega), Array.getElem?_replicate, if_pos (by omega)]

end Signature

/-! ### Programs -/

/-- No scope has a variable or a function. -/
structure Scopes.Bare (s : Scopes) : Prop where
  locals : ∀ k x, s.local? k x = none
  functions : ∀ k f, s.ownFunction? k f = none

namespace Scopes

theorem Bare.openScope {s : Scopes} (h : s.Bare) (parent : Option ScopeId) (list : NodeId) :
    (s.openScope parent list).Bare := by
  refine ⟨fun k x => ?_, fun k f => ?_⟩
  · simp only [local?, Scopes.openScope, Array.getElem?_push]
    split
    · rfl
    · exact h.locals k x
  · simp only [ownFunction?, Scopes.openScope, Array.getElem?_push]
    split
    · rfl
    · exact h.functions k f

mutual

theorem bare_addStmt (scope : ScopeId) : ∀ {s : Scopes} (stmt : Stmt), s.Bare →
    (addStmt scope s stmt).Bare
  | s, .define id _ _ bodyId body, h => by
    have hplace : (s.place id scope).Bare := ⟨h.locals, h.functions⟩
    exact bare_addStmts _ body (hplace.openScope (some scope) bodyId)
  | _, .assign _ _ _, h => ⟨h.locals, h.functions⟩
  | _, .expr _, h => ⟨h.locals, h.functions⟩

theorem bare_addStmts (scope : ScopeId) : ∀ {s : Scopes} (stmts : List Stmt), s.Bare →
    (addStmts scope s stmts).Bare
  | _, [], h => h
  | _, stmt :: rest, h => bare_addStmts scope rest (bare_addStmt scope stmt h)

end

theorem bare_ofProgram (p : Program) : (ofProgram p).Bare :=
  bare_addStmts 0 p.stmts <| Bare.openScope ⟨fun _ _ => rfl, fun _ _ => rfl⟩ none p.body.id

/-- A walk starts with a scope for every list of the program, and with no variable. -/
theorem ready_ofProgram (p : Program) :
    (ofProgram p).Ready [] 0 1 (Stmt.scopeCountAll p.stmts + 0) := by
  have hbare := bare_ofProgram p
  refine ⟨Nat.one_pos, ?_, fun x => ?_, fun k _ x => hbare.locals k x⟩
  · rw [ofProgram, size_addStmts]
    exact Nat.le_refl _
  · simp [hbare.locals 0 x]

end Scopes

namespace Inference

variable {F T : Vertex → Prop}

/-- What a walk starts with, and one more built-in function. -/
def declare (s : Inference) (b : Builtin) : Inference :=
  { s with
    graph := (Signature.builtin s.graph b).1
    builtins := s.builtins.insert b (Signature.builtin s.graph b).2 }

theorem start_eq_foldl (scopes : Scopes) :
    start scopes = Builtin.all.foldl declare { graph := .empty, scopes, builtins := {} } := by
  unfold start
  generalize Builtin.all = bs
  rfl

/-- What holds without built-in functions, and of one more of them, holds when a walk starts. -/
theorem start_induct {motive : Inference → Prop} {scopes : Scopes}
    (hempty : motive { graph := .empty, scopes, builtins := {} })
    (hdeclare : ∀ s b, motive s → motive (s.declare b)) : motive (start scopes) := by
  rw [start_eq_foldl]
  exact List.foldlRecOn Builtin.all declare hempty fun s hs b _ => hdeclare s b hs

theorem sound_declare {s : Inference} (h : s.Sound F T)
    (hnumberF : F { kind := .number, node := none }) (hnumber : T { kind := .number, node := none })
    (b : Builtin) : (s.declare b).Sound F T := by
  have hhas : ∀ {P : Vertex → Prop} {v : VertexId}, s.graph.Has P v →
      (s.declare b).graph.Has P v := by
    rintro P v ⟨r, hr, hP⟩
    exact ⟨r, (Signature.vertex_builtin_of_lt b (s.graph.lt_size hr)).trans hr, hP⟩
  have hsig : ∀ {sig : Signature}, sig.Sound F T s.graph → sig.Sound F T (s.declare b).graph :=
    fun hsig => ⟨fun v hv => hhas (hsig.params v hv), hhas hsig.returns⟩
  have hedges : (s.declare b).graph.edges = s.graph.edges := Signature.edges_builtin s.graph b
  refine ⟨?_, ?_, fun k x v hv => hhas (h.locals k x v hv), fun k f sig hs =>
    hsig (h.functions k f sig hs), fun b' sig hs => ?_⟩
  · rw [hedges]
    exact fun edge hedge => hhas (h.sources edge hedge)
  · rw [hedges]
    exact fun edge hedge => hhas (h.targets edge hedge)
  · refine Table.of_get?_insert (P := fun _ sig => sig.Sound F T (s.declare b).graph)
      (fun b' sig hs => hsig (h.builtins b' sig hs)) ?_ b' sig hs
    exact ⟨fun v hv => ⟨_, Signature.number_builtin (.inl hv), hnumber⟩,
      ⟨_, Signature.number_builtin (.inr rfl), hnumberF⟩⟩

theorem sound_start {scopes : Scopes} (h : scopes.Bare)
    (hnumberF : F { kind := .number, node := none })
    (hnumber : T { kind := .number, node := none }) : (start scopes).Sound F T := by
  refine start_induct ⟨nofun, nofun, fun k x v hv => ?_, fun k f sig hsig => ?_, nofun⟩
    fun s b hs => sound_declare hs hnumberF hnumber b
  · exact absurd (hv.symm.trans (h.locals k x)) nofun
  · exact absurd (hsig.symm.trans (h.functions k f)) nofun

theorem scopes_begin (p : Program) : (begin p).1.scopes = .ofProgram p := by
  simp only [begin, add, scopes_start]

/-- The walk over the statements of a program. -/
def walk (p : Program) : Inference × Option VertexId :=
  stmtsIn 0 1 (begin p).1 none p.stmts

theorem grows_walk (p : Program) : Grows (begin p).1 (walk p).1 :=
  grows_stmtsIn 0 1 _ none p.stmts

/-- It is sound, and what it comes to may flow on if the last statement does. -/
theorem sound_walk (p : Program) (hplaceF : F { kind := .unknown, node := none })
    (hplace : T { kind := .unknown, node := none })
    (hnumberF : F { kind := .number, node := none }) (hnumber : T { kind := .number, node := none })
    (hF : Vertex.Flows F (Stmt.nodeIdsAll p.stmts))
    (hends : ∀ body ∈ Stmt.bodiesAll p.stmts, Stmt.LastFlows F body)
    (hT : ∀ id ∈ Stmt.settledAll [] p.stmts, T { kind := .unknown, node := some id }) :
    (walk p).1.Sound F T ∧
      (Stmt.LastFlows F p.stmts → ∀ v, (walk p).2 = some v → (walk p).1.graph.Has F v) := by
  have hready : (begin p).1.scopes.Ready [] 0 1 (Stmt.scopeCountAll p.stmts + 0) := by
    rw [scopes_begin]
    exact Scopes.ready_ofProgram p
  have hstart := sound_start (Scopes.bare_ofProgram p) hnumberF hnumber
  have hbegin := hstart.add .unknown (some p.body.id)
  obtain ⟨hwalk, hlast⟩ := sound_stmtsIn hplaceF hplace none hbegin hready hF hends hT
  exact ⟨hwalk, fun hend => hlast hend nofun⟩

/-- In the graph of a program with different ids values flow only into the places of variables, the
parameters of functions and what these return, and the nodes that are settled. -/
theorem sound_ofProgram {p : Program} (h : p.nodeIds.Nodup)
    (hplace : T { kind := .unknown, node := none }) (hnumber : T { kind := .number, node := none })
    (hprogram : T { kind := .number, node := some p.id })
    (hT : ∀ id ∈ p.settled, T { kind := .unknown, node := some id }) :
    (ofProgram p).Sound Vertex.Valued T := by
  have heq : ofProgram p = finish p (begin p).2 (walk p).1 (walk p).2 := ofProgram_eq h
  rw [heq]
  have hlast : ∀ ss : List Stmt, Stmt.LastFlows Vertex.Valued ss := by
    intro ss s _
    cases s <;> simp [Stmt.Flows, Vertex.Valued]
  obtain ⟨hwalk, hwalkLast⟩ := sound_walk (F := Vertex.Valued) p (by simp [Vertex.Valued]) hplace
    (by simp [Vertex.Valued]) hnumber (fun id _ => by simp [Vertex.Valued]) (fun body _ => hlast body)
      fun id hid => hT id (by simp [Program.settled, hid])
  have hlist : ∀ {P : Vertex → Prop}, P { kind := .unknown, node := some p.body.id } →
      (walk p).1.graph.Has P (begin p).2 :=
    fun hP => ⟨_, (grows_walk p).vertices (vertex_begin p), hP⟩
  have hlistT := hlist (hT p.body.id (by simp [Program.settled]))
  have hflow := hwalk.flowFrom? (hwalkLast (hlast p.stmts)) fun _ => hlistT
  have hgrowsLast := Grows.flowFrom? (walk p).1 (walk p).2 (begin p).2
  unfold finish
  by_cases hend : endsInDefine p.stmts
  · rw [if_pos hend]
    exact hflow
  · rw [if_neg hend]
    have hlistF := hlist (P := Vertex.Valued) (by simp [Vertex.Valued])
    exact (hflow.add .number (some p.id)).flow ((Grows.add _ _ _).has (hgrowsLast.has hlistF))
      (has_add _ hprogram)

end Inference
end Abacus
