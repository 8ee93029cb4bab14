import Abacus.Proofs.Flow.Edges
import Abacus.Proofs.Names.Running

/-!
# The names that a flow graph leaves unresolved

A variable or a call is unresolved in a flow graph if nothing flows into it. The unbound variables of
a tree are unresolved (`Program.unresolved_of_unbound`), since all edges lead to other nodes. At the
top level every name that something stands for is resolved (`Program.resolved_of_topUses`).

So the graph and the machine agree about names (`Program.names_agree`): what is not resolved is all
that a run can miss, and a run that comes upon an unresolved name at the top level gets no further.
-/
namespace Abacus

namespace FlowGraph

/-- The vertex stands for the node. -/
def Shows (g : FlowGraph) (id : NodeId) (v : VertexId) : Prop :=
  g.Has (fun r => r.node = some id) v

/-- Something flows into the node. -/
def Resolves (g : FlowGraph) (id : NodeId) : Prop :=
  ∃ edge ∈ g.edges, g.Shows id edge.2

/-- The node is in the graph, and nothing flows into it. -/
def Unresolved (g : FlowGraph) (id : NodeId) : Prop :=
  (∃ v, g.Shows id v) ∧ ¬g.Resolves id

end FlowGraph

namespace Inference

variable {s s' : Inference}

theorem Grows.shows (h : Grows s s') {id : NodeId} (hid : ∃ v, s.graph.Shows id v) :
    ∃ v, s'.graph.Shows id v :=
  hid.imp fun _ => h.has

theorem Grows.resolves (h : Grows s s') {id : NodeId} (hid : s.graph.Resolves id) :
    s'.graph.Resolves id :=
  let ⟨edge, hedge, hshows⟩ := hid
  ⟨edge, h.edges hedge, h.has hshows⟩

/-! ## Variables have vertices -/

mutual

theorem shows_expr (scope : ScopeId) : ∀ (s : Inference) (e : Expr), ∀ use ∈ e.variables,
    ∃ v, (expr scope s e).1.graph.Shows use.1 v
  | _, .number _ _ _, _, huse => nomatch huse
  | s, .var id x, use, huse => by
    obtain rfl := List.mem_singleton.mp huse
    exact (Grows.flowFrom? _ _ _).shows ⟨_, s.has_add rfl⟩
  | s, .binary id op left right, use, huse => by
    refine ((Grows.add _ _ _).trans (.apply _ _ _ _)).shows ?_
    rcases List.mem_append.mp huse with hleft | hright
    · exact (grows_expr scope _ right).shows (shows_expr scope s left use hleft)
    · exact shows_expr scope _ right use hright
  | s, .negate id operand, use, huse =>
    ((Grows.add _ _ _).trans (.apply _ _ _ _)).shows (shows_expr scope s operand use huse)
  | s, .call id f args, use, huse =>
    ((Grows.add _ _ _).trans (.apply _ _ _ _)).shows (shows_exprs scope s args use huse)

theorem shows_exprs (scope : ScopeId) : ∀ (s : Inference) (es : List Expr),
    ∀ use ∈ Expr.variablesAll es, ∃ v, (exprs scope s es).1.graph.Shows use.1 v
  | _, [], _, huse => nomatch huse
  | s, e :: rest, use, huse => by
    rcases List.mem_append.mp huse with he | hrest
    · exact (grows_exprs scope _ rest).shows (shows_expr scope s e use he)
    · exact shows_exprs scope _ rest use hrest

end

mutual

theorem shows_stmtIn : ∀ (scope next : ScopeId) (s : Inference) (stmt : Stmt),
    ∀ use ∈ stmt.variables, ∃ v, (stmtIn scope next s stmt).1.graph.Shows use.1 v
  | _, next, _, .define _ _ _ _ body, use, huse =>
    ((Grows.flowFrom? _ _ _).trans (.flow _ _ _)).shows
      (shows_stmtsIn next (next + 1) _ none body use huse)
  | scope, _, _, .assign _ _ value, use, huse =>
    ((Grows.add _ _ _).trans <| (Grows.flow _ _ _).trans (.setLocal _ _ _ _)).shows
      (shows_expr scope _ value use huse)
  | scope, _, s, .expr e, use, huse => shows_expr scope s e use huse

theorem shows_stmtsIn : ∀ (scope next : ScopeId) (s : Inference) (last : Option VertexId)
    (ss : List Stmt), ∀ use ∈ Stmt.variablesAll ss,
      ∃ v, (stmtsIn scope next s last ss).1.graph.Shows use.1 v
  | _, _, _, _, [], _, huse => nomatch huse
  | scope, next, s, _, first :: rest, use, huse => by
    rcases List.mem_append.mp huse with hfirst | hrest
    · exact (grows_stmtsIn scope _ _ _ rest).shows (shows_stmtIn scope next s first use hfirst)
    · exact shows_stmtsIn scope _ _ _ rest use hrest

end

/-! ## Names that something stands for are resolved -/

theorem resolves_flow (s : Inference) (lower : VertexId) {upper : VertexId} {id : NodeId}
    (h : s.graph.Shows id upper) : (s.flow lower upper).graph.Resolves id :=
  ⟨(lower, upper), s.graph.mem_edges_flow.mpr (.inr rfl), h⟩

theorem resolves_flowFrom? (s : Inference) {lower : Option VertexId} {upper : VertexId}
    {id : NodeId} (hlower : lower ≠ none) (h : s.graph.Shows id upper) :
    (s.flowFrom? lower upper).graph.Resolves id := by
  cases lower with
  | none => exact absurd rfl hlower
  | some lower => exact s.resolves_flow lower h

theorem resolves_apply (s : Inference) {signature : Option Signature} (args : List VertexId)
    {result : VertexId} {id : NodeId} (hsig : signature ≠ none) (h : s.graph.Shows id result) :
    (s.apply signature args result).graph.Resolves id := by
  cases signature with
  | none => exact absurd rfl hsig
  | some sig => exact resolves_flow _ _ ((Grows.flowAll _ s).has h)

section
variable {scope : ScopeId} {names functions : List String}

/-- The names of these variables and functions mean something in the scope. -/
structure Knows (scope : ScopeId) (names functions : List String) (scopes : Scopes) : Prop where
  names : ∀ x ∈ names, scopes.local? scope x ≠ none
  functions : ∀ f ∈ functions, scopes.ownFunction? scope f ≠ none

mutual

theorem resolves_expr : ∀ {s : Inference} (e : Expr), Knows scope names functions s.scopes →
    (∀ use ∈ e.variables, use.2 ∈ names → (expr scope s e).1.graph.Resolves use.1) ∧
      ∀ use ∈ e.calls, use.2 ∈ functions → (expr scope s e).1.graph.Resolves use.1
  | _, .number _ _ _, _ => ⟨nofun, nofun⟩
  | s, .var id x, h => by
    refine ⟨fun use huse hx => ?_, nofun⟩
    obtain rfl := List.mem_singleton.mp huse
    exact resolves_flowFrom? _ (h.names x hx) (s.has_add rfl)
  | s, .binary id op left right, h => by
    obtain ⟨hleftVars, hleftCalls⟩ := resolves_expr left h
    rw [← scopes_expr scope s left] at h
    obtain ⟨hrightVars, hrightCalls⟩ := resolves_expr right h
    have hgrows := grows_expr scope (expr scope s left).1 right
    have hlast : Grows (expr scope (expr scope s left).1 right).1
        (expr scope s (.binary id op left right)).1 := (Grows.add _ _ _).trans (.apply _ _ _ _)
    refine ⟨fun use huse hx => hlast.resolves ?_, fun use huse hf => hlast.resolves ?_⟩
    · rcases List.mem_append.mp huse with hleft | hright
      · exact hgrows.resolves (hleftVars use hleft hx)
      · exact hrightVars use hright hx
    · rcases List.mem_append.mp huse with hleft | hright
      · exact hgrows.resolves (hleftCalls use hleft hf)
      · exact hrightCalls use hright hf
  | s, .negate id operand, h => by
    obtain ⟨hvars, hcalls⟩ := resolves_expr operand h
    have hlast : Grows (expr scope s operand).1 (expr scope s (.negate id operand)).1 :=
      (Grows.add _ _ _).trans (.apply _ _ _ _)
    exact ⟨fun use huse hx => hlast.resolves (hvars use huse hx),
      fun use huse hf => hlast.resolves (hcalls use huse hf)⟩
  | s, .call id f args, h => by
    obtain ⟨hvars, hcalls⟩ := resolves_exprs args h
    rw [← scopes_exprs scope s args] at h
    have hlast : Grows (exprs scope s args).1 (expr scope s (.call id f args)).1 :=
      (Grows.add _ _ _).trans (.apply _ _ _ _)
    refine ⟨fun use huse hx => hlast.resolves (hvars use huse hx), fun use huse hf => ?_⟩
    rw [Expr.calls] at huse
    by_cases hbuiltin : Builtin.ofName? f = none
    · rw [if_pos hbuiltin] at huse
      rcases List.mem_cons.mp huse with rfl | hmem
      · refine resolves_apply _ _ ?_ ((exprs scope s args).1.has_add rfl)
        rw [function?, hbuiltin]
        exact Scopes.function?_ne_none _ scope (h.functions f hf)
      · exact hlast.resolves (hcalls use hmem hf)
    · rw [if_neg hbuiltin] at huse
      exact hlast.resolves (hcalls use huse hf)

theorem resolves_exprs : ∀ {s : Inference} (es : List Expr), Knows scope names functions s.scopes →
    (∀ use ∈ Expr.variablesAll es, use.2 ∈ names → (exprs scope s es).1.graph.Resolves use.1) ∧
      ∀ use ∈ Expr.callsAll es, use.2 ∈ functions → (exprs scope s es).1.graph.Resolves use.1
  | _, [], _ => ⟨nofun, nofun⟩
  | s, e :: rest, h => by
    obtain ⟨hvars, hcalls⟩ := resolves_expr e h
    rw [← scopes_expr scope s e] at h
    obtain ⟨hrestVars, hrestCalls⟩ := resolves_exprs rest h
    have hgrows := grows_exprs scope (expr scope s e).1 rest
    refine ⟨fun use huse hx => ?_, fun use huse hf => ?_⟩
    · rcases List.mem_append.mp huse with he | hrest
      · exact hgrows.resolves (hvars use he hx)
      · exact hrestVars use hrest hx
    · rcases List.mem_append.mp huse with he | hrest
      · exact hgrows.resolves (hcalls use he hf)
      · exact hrestCalls use hrest hf

end

/-- What does not dangle is resolved. -/
theorem resolves_of_not_dangling {e : Expr} (h : Knows scope names functions s.scopes)
    {use : NodeId × String} (huse : use ∈ e.variables ++ e.calls)
    (hnot : use ∉ e.dangling names functions) : (expr scope s e).1.graph.Resolves use.1 := by
  obtain ⟨hvars, hcalls⟩ := resolves_expr e h
  rw [Expr.mem_dangling, not_or] at hnot
  rcases List.mem_append.mp huse with hvar | hcall
  · exact hvars use hvar (not_not.mp fun hx => hnot.1 ⟨hvar, hx⟩)
  · exact hcalls use hcall (not_not.mp fun hf => hnot.2 ⟨hcall, hf⟩)

theorem resolves_stmtIn {next : ScopeId} {stmt : Stmt} (h : Knows scope names functions s.scopes)
    {use : NodeId × String} (huse : use ∈ stmt.uses) (hnot : use ∉ stmt.dangling names functions) :
    (stmtIn scope next s stmt).1.graph.Resolves use.1 := by
  cases stmt with
  | define id f ps bodyId body => cases huse
  | assign id x value =>
    have hgrows : Grows (expr scope (s.add .undefined (some id)).1 value).1
        (stmtIn scope next s (.assign id x value)).1 :=
      (Grows.add _ _ _).trans ((Grows.flow _ _ _).trans (.setLocal _ scope x _))
    exact hgrows.resolves (resolves_of_not_dangling (s := (s.add .undefined (some id)).1) h huse hnot)
  | expr e => exact resolves_of_not_dangling h huse hnot

/-- A statement adds the function that it defines to its scope. -/
theorem functions_stmtIn {next : ScopeId} {stmt : Stmt} (hscope : scope < s.scopes.scopes.size)
    (h : ∀ f ∈ functions, s.scopes.ownFunction? scope f ≠ none) :
    ∀ f ∈ stmt.defines functions,
      (stmtIn scope next s stmt).1.scopes.ownFunction? scope f ≠ none := by
  intro g hg
  have hold : g ∈ functions → (stmtIn scope next s stmt).1.scopes.ownFunction? scope g ≠ none :=
    fun hmem => (grows_stmtIn scope next s stmt).functions (h g hmem)
  cases stmt with
  | define id f ps bodyId body =>
    rcases List.mem_cons.mp hg with rfl | hmem
    · have hgrows := (Grows.add s .undefined (some id)).trans (grows_params next _ ps.params)
      have hdefine : ((params next (s.add .undefined (some id)).1 ps.params).1.define scope g
          (params next (s.add .undefined (some id)).1 ps.params).2).1.scopes.ownFunction? scope g ≠
            none := by
        rw [define, Scopes.ownFunction?_define, if_pos ⟨rfl, rfl, hgrows.scopes ▸ hscope⟩]
        exact nofun
      exact ((Grows.add _ _ _).trans <| (grows_stmtsIn next (next + 1) _ none body).trans <|
        (Grows.flowFrom? _ _ _).trans (.flow _ _ _)).functions hdefine
    · exact hold hmem
  | assign id x value => exact hold hg
  | expr e => exact hold hg

end

theorem resolves_stmtsIn : ∀ {names functions : List String} {scope next count : Nat}
    {s : Inference} {last : Option VertexId} (ss : List Stmt),
      s.scopes.Ready names scope next (Stmt.scopeCountAll ss + count) →
        (∀ f ∈ functions, s.scopes.ownFunction? scope f ≠ none) →
          ∀ use ∈ ss.flatMap Stmt.uses, use ∉ Stmt.danglingAll names functions ss →
            (stmtsIn scope next s last ss).1.graph.Resolves use.1
  | _, _, _, _, _, _, _, [], _, _, _, huse, _ => nomatch huse
  | names, functions, scope, next, count, s, last, first :: rest, hready, hfunctions, use, huse,
      hnot => by
    rw [Stmt.scopeCountAll, Nat.add_assoc] at hready
    rw [Stmt.danglingAll, List.mem_append, not_or] at hnot
    rw [List.flatMap_cons, List.mem_append] at huse
    rcases huse with hfirst | hrest
    · have hknows : Knows scope names functions s.scopes :=
        ⟨fun x => (hready.names x).mpr, hfunctions⟩
      exact (grows_stmtsIn scope _ _ _ rest).resolves (resolves_stmtIn hknows hfirst hnot.1)
    · have hscope : scope < s.scopes.scopes.size := by
        have := hready.lt
        have := hready.le
        omega
      exact resolves_stmtsIn rest (ready_stmtIn hready) (functions_stmtIn hscope hfunctions) use
        hrest hnot.2

end Inference

namespace Program

variable {p : Program}

/-- Nothing flows into an unbound variable. -/
theorem unresolved_of_unbound (h : p.nodeIds.Nodup) {use : NodeId × String}
    (huse : use ∈ p.unbound) : p.flowGraph.Unresolved use.1 := by
  constructor
  · rw [flowGraph, Inference.ofProgram_eq h]
    exact (Inference.grows_finish _ _ _ _).shows
      (Inference.shows_stmtsIn 0 1 _ none p.stmts use (variables_of_unbound huse))
  · -- whatever something flows into is another node
    have hsettled : ∀ id ∈ p.settled, some id ≠ some use.1 := by
      intro id hid heq
      exact unbound_disjoint h huse (Option.some.inj heq ▸ hid)
    have hnone : (none : Option NodeId) ≠ some use.1 := nofun
    have hsound := Inference.sound_ofProgram (T := fun r => r.node ≠ some use.1) h hnone hnone
      (hsettled p.id List.mem_cons_self) hsettled
    rintro ⟨edge, hedge, r, hr, hnode⟩
    obtain ⟨r', hr', hother⟩ := hsound.targets edge hedge
    cases hr.symm.trans hr'
    exact hother hnode

/-- At the top level something flows into every name that something stands for. -/
theorem resolved_of_topUses (h : p.nodeIds.Nodup) {use : NodeId × String} (huse : use ∈ p.topUses)
    (hnot : use ∉ p.dangling) : p.flowGraph.Resolves use.1 := by
  have hready : (Inference.begin p).1.scopes.Ready [] 0 1 (Stmt.scopeCountAll p.stmts + 0) := by
    rw [Inference.scopes_begin]
    exact Scopes.ready_ofProgram p
  have hfunctions : ∀ f ∈ ([] : List String),
      (Inference.begin p).1.scopes.ownFunction? 0 f ≠ none := nofun
  rw [flowGraph, Inference.ofProgram_eq h]
  exact (Inference.grows_finish _ _ _ _).resolves
    (Inference.resolves_stmtsIn p.stmts hready hfunctions use huse hnot)

/-- The graph of a program and its runs agree about names. In a program with different ids, whatever
the limit on the depth of calls:

* a variable that a run misses is one that the graph leaves unresolved, so that a run misses none if
  the graph resolves them all;
* a run comes to no value if the graph leaves a variable, or a call of a function that is not built
  in, unresolved outside of all definitions. -/
theorem names_agree (p : Program) (h : p.nodeIds.Nodup) (limit : Option Nat) :
    (∀ x, (p.compile.run {} limit).result = .error (.unknownVariable x) →
      ∃ id, (id, x) ∈ p.variables ∧ p.flowGraph.Unresolved id) ∧
    ((∀ use ∈ p.variables, p.flowGraph.Resolves use.1) →
      ∀ x, (p.compile.run {} limit).result ≠ .error (.unknownVariable x)) ∧
    ∀ use ∈ p.topUses, p.flowGraph.Unresolved use.1 →
      ∃ e, (p.compile.run {} limit).result = .error e := by
  have hmissing : ∀ x, (p.compile.run {} limit).result = .error (.unknownVariable x) →
      ∃ id, (id, x) ∈ p.variables ∧ p.flowGraph.Unresolved id := by
    intro x hx
    obtain ⟨id, hid⟩ := unbound_of_unknownVariable hx
    exact ⟨id, variables_of_unbound hid, unresolved_of_unbound h hid⟩
  refine ⟨hmissing, fun hall x hx => ?_, fun use huse hunresolved => ?_⟩
  · obtain ⟨id, hid, -, hnot⟩ := hmissing x hx
    exact hnot (hall (id, x) hid)
  · cases hrun : (p.compile.run {} limit).result with
    | error e => exact ⟨e, rfl⟩
    | ok v =>
      have hnone := dangling_of_run_ok hrun
      refine absurd (resolved_of_topUses h huse ?_) hunresolved.2
      rw [hnone]
      exact List.not_mem_nil

/-- `f(x) = x + z`, then `f(2)`, then `q`. -/
def missingNames : Program :=
  .ofStmts
    [ .define unnumbered "f" { id := unnumbered, params := [{ id := unnumbered, name := "x" }] }
        unnumbered
        [.expr (.binary unnumbered .add (.var unnumbered "x") (.var unnumbered "z"))],
      .expr (.call unnumbered "f" [.number unnumbered 2 none]),
      .expr (.var unnumbered "q") ]

/-- The run misses `z` in the body of the function; because of `q` there is no value either way. -/
theorem names_agree_missingNames :
    missingNames.nodeIds.Nodup ∧
      (missingNames.compile.run {} none).result = .error (.unknownVariable "z") ∧
      (∃ id, (id, "z") ∈ missingNames.variables ∧ missingNames.flowGraph.Unresolved id) ∧
      (11, "q") ∈ missingNames.topUses ∧ missingNames.flowGraph.Unresolved 11 ∧
      ∀ limit, ∃ e, (missingNames.compile.run {} limit).result = .error e := by
  have hnodup : missingNames.nodeIds.Nodup := by decide
  have hrun : (missingNames.compile.run {} none).result = .error (.unknownVariable "z") := rfl
  have htop : (11, "q") ∈ missingNames.topUses := by decide
  have hunbound : (11, "q") ∈ missingNames.unbound := by decide
  have hunresolved := unresolved_of_unbound hnodup hunbound
  exact ⟨hnodup, hrun, (names_agree missingNames hnodup none).1 "z" hrun, htop, hunresolved,
    fun limit => (names_agree missingNames hnodup limit).2.2 (11, "q") htop hunresolved⟩

end Program
end Abacus
