import Abacus.Proofs.Flow.Edges
import Abacus.Proofs.Flow.Reach

/-!
# What a mismatch can be

Only numbers and what is undefined can meet in a program: values flow into unknown vertices, into
numbers, and out of neither functions nor, but for the ends of lists, statements without a value. So a
mismatch says that something undefined has reached a number, and such a number is a parameter of a
built-in function or the program itself (`Program.exists_of_mem_mismatches`).

What is undefined flows nowhere unless a statement list ends in it. Where the lists of a program end in
expressions there is no mismatch, and where its last statement is an assignment there is one at the
program itself (`Program.mismatches_of_ends`).
-/
namespace Abacus

/-- A list of statements that is empty or has the value of an expression. -/
def Stmt.EndsInExpr (ss : List Stmt) : Prop :=
  ∀ s, ss.getLast? = some s → ∃ e, s = .expr e

/-- An expression may flow on in any case. -/
theorem Stmt.EndsInExpr.lastFlows {F : Vertex → Prop} {ss : List Stmt} (h : Stmt.EndsInExpr ss) :
    Stmt.LastFlows F ss := by
  intro s hs
  obtain ⟨e, rfl⟩ := h s hs
  exact trivial

namespace Inference

theorem endsInDefine_iff {ss : List Stmt} :
    endsInDefine ss = true ↔ ∃ d : Define, ss.getLast? = some d.stmt := by
  unfold endsInDefine
  cases ss.getLast? with
  | none => simp
  | some s =>
    cases s with
    | define id f params bodyId body =>
      exact ⟨fun _ => ⟨{ id, name := f, params, body := { id := bodyId, stmts := body } }, rfl⟩,
        fun _ => rfl⟩
    | assign | expr => simp [Stmt.define?, Define.stmt]

/-- A walk over a list that ends in an assignment comes to its vertex, which is undefined. -/
theorem last_stmtsIn {id : NodeId} {x : String} {value : Expr} : ∀ (scope next : ScopeId)
    (s : Inference) (last : Option VertexId) {ss : List Stmt},
      ss.getLast? = some (.assign id x value) → ∃ v, (stmtsIn scope next s last ss).2 = some v ∧
        (stmtsIn scope next s last ss).1.graph.vertices[v]? =
          some { kind := .undefined, node := some id }
  | scope, next, s, last, [stmt], h => by
    obtain rfl := Option.some.inj h
    refine ⟨s.graph.size, rfl, ?_⟩
    have hgrows : Grows (s.add .undefined (some id)).1
        (stmtIn scope next s (.assign id x value)).1 :=
      (grows_expr scope _ value).trans <| (Grows.add _ _ _).trans <| (Grows.flow _ _ _).trans
        (.setLocal _ scope x _)
    exact hgrows.vertices (s.graph.vertex_add .undefined (some id))
  | scope, next, s, last, stmt :: stmt' :: rest, h => by
    rw [List.getLast?_cons_cons] at h
    exact last_stmtsIn scope (next + stmt.scopeCount) (stmtIn scope next s stmt).1 _ h

theorem last_walk {p : Program} {id : NodeId} {x : String} {value : Expr}
    (h : p.stmts.getLast? = some (.assign id x value)) : ∃ v, (walk p).2 = some v ∧
      (walk p).1.graph.vertices[v]? = some { kind := .undefined, node := some id } := by
  unfold walk
  exact last_stmtsIn 0 1 _ none h

end Inference

namespace Program

variable {p : Program}

/-! ## The end of a program in its graph -/

section
variable (h : p.nodeIds.Nodup)
include h

theorem flowGraph_eq : p.flowGraph =
    (Inference.finish p (Inference.begin p).2 (Inference.walk p).1 (Inference.walk p).2).graph :=
  congrArg Inference.graph (Inference.ofProgram_eq h)

theorem vertex_flowGraph {v : VertexId} {r : Vertex}
    (hr : (Inference.walk p).1.graph.vertices[v]? = some r) : p.flowGraph.vertices[v]? = some r := by
  rw [flowGraph_eq h]
  exact (Inference.grows_finish _ _ _ _).vertices hr

/-- The list of a program holds nothing of its own. -/
theorem vertex_list : p.flowGraph.vertices[(Inference.begin p).2]? =
    some { kind := .unknown, node := some p.body.id } :=
  vertex_flowGraph h ((Inference.grows_walk p).vertices (Inference.vertex_begin p))

/-- All edges are drawn by the walk, but for the two at the end. -/
theorem mem_edges_flowGraph {lower upper : VertexId} :
    (lower, upper) ∈ p.flowGraph.edges ↔ (lower, upper) ∈ (Inference.walk p).1.graph.edges ∨
      ((Inference.walk p).2 = some lower ∧ upper = (Inference.begin p).2) ∨
        (Inference.endsInDefine p.stmts = false ∧ lower = (Inference.begin p).2 ∧
          upper = (Inference.walk p).1.graph.size) := by
  rw [flowGraph_eq h]
  exact Inference.mem_edges_finish

/-- Every edge leads to a vertex that is there. -/
theorem target_lt_size : ∀ edge ∈ p.flowGraph.edges, edge.2 < p.flowGraph.size := by
  have hsound := Inference.sound_ofProgram (T := fun _ => True) h trivial trivial trivial
    fun _ _ => trivial
  intro edge hedge
  obtain ⟨r, hr, -⟩ := hsound.targets edge hedge
  exact p.flowGraph.lt_size hr

end

/-! ## Mismatches -/

/-- A mismatch says that something undefined has reached a number, which stands for no node or for the
program. -/
theorem exists_of_mem_mismatches (h : p.nodeIds.Nodup) {m : Mismatch} (hm : m ∈ p.mismatches) :
    ∃ source v, p.flowGraph.kind? source = some .undefined ∧ p.flowGraph.kind? v = some .number ∧
      p.flowGraph.Reaches source v ∧ m.expected = .undefined ∧ m.found = .number ∧
      (m.node = none ∨ m.node = some p.id) := by
  obtain ⟨source, v, lower, upper, hlower, hupper, hlowerConcrete, hupperConcrete, hne, hreached,
    rfl⟩ := (FlowGraph.mem_mismatches_iff (target_lt_size h)).mp hm
  have hsound := Inference.sound_ofProgram
    (T := fun r => r.kind = .unknown ∨ r.kind = .number ∧ (r.node = none ∨ r.node = some p.id)) h
    (.inl rfl) (.inr ⟨rfl, .inl rfl⟩) (.inr ⟨rfl, .inr rfl⟩) fun _ _ => .inl rfl
  -- the vertex that is reached is a concrete one that something may flow into
  obtain ⟨hnumber, hnode⟩ : upper.kind = .number ∧ (upper.node = none ∨ upper.node = some p.id) := by
    obtain ⟨edge, hedge, rfl⟩ := hreached.target
    obtain ⟨r, hr, htarget⟩ := hsound.targets edge hedge
    obtain rfl := Option.some.inj (hr.symm.trans hupper)
    exact htarget.resolve_left hupperConcrete
  -- and the vertex that reaches it is a concrete one that something may flow out of
  have hundefined : lower.kind = .undefined := by
    obtain ⟨w, hedge, -⟩ := hreached.first
    obtain ⟨r, hr, hvalued⟩ := hsound.sources _ hedge
    obtain rfl := Option.some.inj (hr.symm.trans hlower)
    rw [hnumber] at hne
    cases hkind : r.kind with
    | unknown => exact absurd hkind hlowerConcrete
    | number => exact absurd hkind.symm hne
    | undefined => rfl
    | function => exact absurd hkind hvalued
  have hkind : ∀ {u : VertexId} {r : Vertex}, p.flowGraph.vertices[u]? = some r →
      p.flowGraph.kind? u = some r.kind := by
    intro u r hr
    rw [FlowGraph.kind?, hr]
    rfl
  exact ⟨source, v, hundefined ▸ hkind hlower, hnumber ▸ hkind hupper, hreached, hundefined,
    hnumber, hnode⟩

/-- What may flow on within a program of which no body ends in a statement without a value. -/
def FlowsOn (p : Program) (r : Vertex) : Prop :=
  r.kind ≠ .undefined ∧ r.node ≠ some p.body.id

theorem flowsOn_walk (h : p.nodeIds.Nodup)
    (hbodies : ∀ body ∈ Stmt.bodiesAll p.stmts, Stmt.EndsInExpr body) :
    (∀ {lower upper : VertexId}, (lower, upper) ∈ (Inference.walk p).1.graph.edges →
      (Inference.walk p).1.graph.Has p.FlowsOn lower) ∧
      (Stmt.EndsInExpr p.stmts → ∀ v, (Inference.walk p).2 = some v →
        (Inference.walk p).1.graph.Has p.FlowsOn v) := by
  have hids : p.body.id ∉ Stmt.nodeIdsAll p.stmts :=
    (List.nodup_cons.mp (List.nodup_cons.mp h).2).1
  have hnodes : Vertex.Flows p.FlowsOn (Stmt.nodeIdsAll p.stmts) := by
    intro id hid
    have hne : id ≠ p.body.id := fun heq => hids (heq ▸ hid)
    simp [FlowsOn, hne]
  obtain ⟨hwalk, hlast⟩ := Inference.sound_walk (F := p.FlowsOn) (T := fun _ => True) p
    ⟨nofun, nofun⟩ trivial ⟨nofun, nofun⟩ trivial hnodes
    (fun body hbody => (hbodies body hbody).lastFlows) fun _ _ => trivial
  exact ⟨hwalk.sources _, fun hexpr => hlast hexpr.lastFlows⟩

/-- Then nothing undefined flows anywhere but from a definition at the end of the program into its
list, and nothing flows out of that. -/
theorem mismatches_eq_nil (h : p.nodeIds.Nodup)
    (hbodies : ∀ body ∈ Stmt.bodiesAll p.stmts, Stmt.EndsInExpr body)
    (htop : Stmt.EndsInExpr p.stmts ∨ ∃ d : Define, p.stmts.getLast? = some d.stmt) :
    p.mismatches = [] := by
  refine List.eq_nil_iff_forall_not_mem.mpr fun m hm => ?_
  obtain ⟨source, v, hsource, hv, hreached, -⟩ := exists_of_mem_mismatches h hm
  obtain ⟨hsources, hlast⟩ := flowsOn_walk h hbodies
  have hlist : p.flowGraph.kind? (Inference.begin p).2 = some .unknown := by
    rw [FlowGraph.kind?, vertex_list h]
    rfl
  have hnotFlows : ¬(Inference.walk p).1.graph.Has p.FlowsOn source := by
    rintro ⟨r, hr, hundefined, -⟩
    rw [FlowGraph.kind?, vertex_flowGraph h hr] at hsource
    exact hundefined (Option.some.inj hsource)
  have hnotList : source ≠ (Inference.begin p).2 := by
    intro heq
    rw [heq, hlist] at hsource
    cases hsource
  obtain ⟨w, hedge, hon⟩ := hreached.first
  rcases (mem_edges_flowGraph h).mp hedge with hold | ⟨hend, hw⟩ | ⟨-, heq, -⟩
  · exact hnotFlows (hsources hold)
  · rcases htop with hexpr | hdefine
    · exact hnotFlows (hlast hexpr source hend)
    · -- the list is not what is reached, and there is no edge out of it
      rw [hw] at hon
      rcases hon with heq | ⟨-, x, hnext⟩
      · rw [← heq, hlist] at hv
        cases hv
      · rcases (mem_edges_flowGraph h).mp hnext with hold | ⟨heq, -⟩ | ⟨hnone, -⟩
        · obtain ⟨r, hr, -, hnode⟩ := hsources hold
          have hr := (vertex_flowGraph h hr).symm.trans (vertex_list h)
          exact hnode (congrArg Vertex.node (Option.some.inj hr))
        · exact hnotList (Option.some.inj (hend.symm.trans heq))
        · cases hnone.symm.trans (Inference.endsInDefine_iff.mpr hdefine)
  · exact hnotList heq

/-- An assignment at the end of a program leaves it without the number that it has to be. -/
theorem exists_mismatch_of_assign (h : p.nodeIds.Nodup) {id : NodeId} {x : String} {value : Expr}
    (hlast : p.stmts.getLast? = some (.assign id x value)) :
    ∃ m ∈ p.mismatches, m.node = some p.id := by
  have hdefine : Inference.endsInDefine p.stmts = false := by
    rw [Inference.endsInDefine, hlast]
    rfl
  obtain ⟨v, hv, hvertex⟩ := Inference.last_walk hlast
  have hprogram : p.flowGraph.vertices[(Inference.walk p).1.graph.size]? =
      some { kind := .number, node := some p.id } := by
    rw [flowGraph_eq h]
    exact Inference.vertex_finish hdefine
  -- from the assignment into the list, and on into the program
  have hfirst : (v, (Inference.begin p).2) ∈ p.flowGraph.edges :=
    (mem_edges_flowGraph h).mpr (.inr (.inl ⟨hv, rfl⟩))
  have hsecond : ((Inference.begin p).2, (Inference.walk p).1.graph.size) ∈ p.flowGraph.edges :=
    (mem_edges_flowGraph h).mpr (.inr (.inr ⟨hdefine, rfl, rfl⟩))
  have hlist : p.flowGraph.kind? (Inference.begin p).2 = some .unknown := by
    rw [FlowGraph.kind?, vertex_list h]
    rfl
  have hreaches := FlowGraph.Reaches.through (.edge hfirst) hlist hsecond
  exact ⟨_, (FlowGraph.mem_mismatches_iff (target_lt_size h)).mpr ⟨v, _, _, _,
    vertex_flowGraph h hvertex, hprogram, by simp, by simp, by simp, hreaches, rfl⟩, rfl⟩

/-- What a mismatch of a program with different ids can be. It says that something undefined has reached
a number, which is the program or stands for no node. There is none if every statement list is empty
or ends in an expression, or the program in a definition; and there is one at the program if its last
statement is an assignment. -/
theorem mismatches_of_ends (p : Program) (h : p.nodeIds.Nodup) :
    (∀ m ∈ p.mismatches, m.expected = .undefined ∧ m.found = .number ∧
      (m.node = none ∨ m.node = some p.id)) ∧
    ((∀ body ∈ Stmt.bodiesAll p.stmts, Stmt.EndsInExpr body) →
      (Stmt.EndsInExpr p.stmts ∨ ∃ d : Define, p.stmts.getLast? = some d.stmt) →
        p.mismatches = []) ∧
    ∀ id x value, p.stmts.getLast? = some (.assign id x value) →
      ∃ m ∈ p.mismatches, m.node = some p.id := by
  refine ⟨fun m hm => ?_, mismatches_eq_nil h, fun _ _ _ => exists_mismatch_of_assign h⟩
  obtain ⟨-, -, -, -, -, hexpected, hfound, hnode⟩ := exists_of_mem_mismatches h hm
  exact ⟨hexpected, hfound, hnode⟩

/-- `f(a) = b = a`, then `c = f(1) + 2`: neither has `f` anything to add nor the program a value. -/
def lastAssigned : Program :=
  .ofStmts
    [ .define unnumbered "f" { id := unnumbered, params := [{ id := unnumbered, name := "a" }] }
        unnumbered [.assign unnumbered "b" (.var unnumbered "a")],
      .assign unnumbered "c" (.binary unnumbered .add
        (.call unnumbered "f" [.number unnumbered 1 none]) (.number unnumbered 2 none)) ]

/-- `b = 1`, then `f(a) = a + b`. -/
def lastDefined : Program :=
  .ofStmts
    [ .assign unnumbered "b" (.number unnumbered 1 none),
      .define unnumbered "f" { id := unnumbered, params := [{ id := unnumbered, name := "a" }] }
        unnumbered
        [.expr (.binary unnumbered .add (.var unnumbered "a") (.var unnumbered "b"))] ]

theorem mismatches_of_ends_last :
    lastAssigned.nodeIds.Nodup ∧ lastAssigned.mismatches.map Mismatch.node = [none, some 0] ∧
      (∀ m ∈ lastAssigned.mismatches, m.expected = .undefined ∧ m.found = .number ∧
        (m.node = none ∨ m.node = some lastAssigned.id)) ∧
      (∃ m ∈ lastAssigned.mismatches, m.node = some lastAssigned.id) ∧
      lastDefined.nodeIds.Nodup ∧ lastDefined.mismatches = [] := by
  have hassigned : lastAssigned.nodeIds.Nodup := by decide
  have hdefined : lastDefined.nodeIds.Nodup := by decide
  obtain ⟨hall, -, hexists⟩ := mismatches_of_ends lastAssigned hassigned
  refine ⟨hassigned, by decide +kernel, hall, hexists _ _ _ rfl, hdefined,
    (mismatches_of_ends lastDefined hdefined).2.1 (fun body hbody => ?_)
      (.inr (Inference.endsInDefine_iff.mp rfl))⟩
  obtain rfl := List.mem_singleton.mp hbody
  exact fun s hs => ⟨_, (Option.some.inj hs).symm⟩

end Program
end Abacus
