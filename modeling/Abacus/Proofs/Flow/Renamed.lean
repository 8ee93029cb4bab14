import Abacus.Flow.Inference
import Abacus.Proofs.Names.Renaming
import Abacus.Syntax.Node

/-!
# Names matter up to renaming

A renamed program runs as the program does, but for the names in its events and errors, and it has the
same mismatches (`Program.renamed_agrees`).

The walk for the flow graph uses names as the machine does, as keys of tables. What it does to a renamed
tree with renamed scopes is what it does to the tree, with the scopes renamed (`Inference.stmts_rename`).
Vertices and edges bear no names, so the two graphs are equal (`Program.flowGraph_rename`).
-/
namespace Abacus

/-! ## Renamed scopes -/

section
variable (ρ : Renaming)

def Scope.rename (r : Scope) : Scope :=
  { r with locals := r.locals.map ρ id, functions := r.functions.map ρ id }

def Scopes.rename (s : Scopes) : Scopes :=
  { s with scopes := s.scopes.map (Scope.rename ρ) }

namespace Scopes

theorem openScope_rename (s : Scopes) (parent : Option ScopeId) (list : NodeId) :
    (s.rename ρ).openScope parent list = (s.openScope parent list).rename ρ := by
  simp only [openScope, rename, Array.size_map, Array.map_push]
  rfl

mutual

theorem addStmt_rename (scope : ScopeId) : ∀ (s : Scopes) (stmt : Stmt),
    addStmt scope (s.rename ρ) (stmt.rename ρ) = (addStmt scope s stmt).rename ρ
  | s, .define id _ _ bodyId body => by
    have hplace : (s.rename ρ).place id scope = (s.place id scope).rename ρ := rfl
    have hsize : ((s.place id scope).rename ρ).scopes.size = (s.place id scope).scopes.size :=
      Array.size_map
    simp only [Stmt.rename, addStmt, hplace, hsize, openScope_rename, addStmts_rename _ _ body]
  | _, .assign _ _ _ => rfl
  | s, .expr e => by
    simp only [Stmt.rename, addStmt, Expr.id_rename]
    rfl

theorem addStmts_rename (scope : ScopeId) : ∀ (s : Scopes) (stmts : List Stmt),
    addStmts scope (s.rename ρ) (Stmt.renameAll ρ stmts) = (addStmts scope s stmts).rename ρ
  | _, [] => rfl
  | s, stmt :: rest => by
    simp only [Stmt.renameAll, addStmts, addStmt_rename scope s stmt, addStmts_rename scope _ rest]

end

theorem ofProgram_rename (p : Program) : ofProgram (p.rename ρ) = (ofProgram p).rename ρ := by
  have hempty : empty.rename ρ = empty := by simp [rename, empty]
  have hopen := openScope_rename ρ empty none p.body.id
  have hstmts := addStmts_rename ρ 0 (empty.openScope none p.body.id) p.stmts
  rw [hempty] at hopen
  rw [← hopen] at hstmts
  exact hstmts

theorem local?_rename (s : Scopes) (scope : ScopeId) (x : String) :
    (s.rename ρ).local? scope (ρ x) = s.local? scope x := by
  simp only [local?, rename, Array.getElem?_map]
  cases s.scopes[scope]? with
  | none => rfl
  | some r =>
    have hlookup := Table.get?_map ρ.injective id r.locals x
    rw [Option.map_id] at hlookup
    exact hlookup

/-- A change of one scope that renaming passes through. -/
theorem modify_rename (s : Scopes) (scope : ScopeId) {change change' : Scope → Scope}
    (h : ∀ r, change' (r.rename ρ) = (change r).rename ρ) :
    { s.rename ρ with scopes := (s.rename ρ).scopes.modify scope change' } =
      { s with scopes := s.scopes.modify scope change }.rename ρ := by
  simp only [rename]
  congr 1
  refine Array.ext (by simp) fun k hk hk' => ?_
  simp only [Array.getElem_modify, Array.getElem_map]
  split
  · exact h _
  · rfl

theorem setLocal_rename (s : Scopes) (scope : ScopeId) (x : String) (v : VertexId) :
    (s.rename ρ).setLocal scope (ρ x) v = (s.setLocal scope x v).rename ρ :=
  modify_rename ρ s scope fun _ => rfl

theorem define_rename (s : Scopes) (scope : ScopeId) (f : String) (sig : Signature) :
    (s.rename ρ).define scope (ρ f) sig = (s.define scope f sig).rename ρ :=
  modify_rename ρ s scope fun _ => rfl

theorem functionIn_rename (s : Scopes) (f : String) (depth : Nat) (scope : ScopeId) :
    (s.rename ρ).functionIn (ρ f) depth scope = s.functionIn f depth scope := by
  induction depth generalizing scope with
  | zero => rfl
  | succ depth ih =>
    simp only [functionIn, rename, Array.getElem?_map] at ih ⊢
    cases s.scopes[scope]? with
    | none => rfl
    | some r =>
      have hlookup := Table.get?_map ρ.injective id r.functions f
      rw [Option.map_id] at hlookup
      simp only [Option.map_some, Scope.rename, bind, Option.bind, id, hlookup]
      cases r.functions.get? f with
      | some sig => rfl
      | none =>
        cases r.parent with
        | none => rfl
        | some parent => exact ih parent

theorem function?_rename (s : Scopes) (scope : ScopeId) (f : String) :
    (s.rename ρ).function? scope (ρ f) = s.function? scope f := by
  have hsize : (s.rename ρ).scopes.size = s.scopes.size := Array.size_map
  rw [function?, function?, hsize, functionIn_rename]

end Scopes

/-! ## Renamed walks -/

def Inference.rename (s : Inference) : Inference :=
  { s with scopes := s.scopes.rename ρ }

namespace Inference

theorem add_rename (s : Inference) (kind : Kind) (node : Option NodeId) :
    (s.rename ρ).add kind node = ((s.add kind node).1.rename ρ, (s.add kind node).2) :=
  rfl

theorem flow_rename (s : Inference) (lower upper : VertexId) :
    (s.rename ρ).flow lower upper = (s.flow lower upper).rename ρ :=
  rfl

theorem flowFrom?_rename (s : Inference) (lower : Option VertexId) (upper : VertexId) :
    (s.rename ρ).flowFrom? lower upper = (s.flowFrom? lower upper).rename ρ := by
  cases lower <;> rfl

theorem setLocal_rename (s : Inference) (scope : ScopeId) (x : String) (v : VertexId) :
    (s.rename ρ).setLocal scope (ρ x) v = (s.setLocal scope x v).rename ρ := by
  simp only [setLocal, rename, Scopes.setLocal_rename]

theorem define_rename (s : Inference) (scope : ScopeId) (f : String) (params : List VertexId) :
    (s.rename ρ).define scope (ρ f) params =
      ((s.define scope f params).1.rename ρ, (s.define scope f params).2) := by
  simp only [define, rename, Scopes.define_rename]

theorem local?_rename (s : Inference) (scope : ScopeId) (x : String) :
    (s.rename ρ).scopes.local? scope (ρ x) = s.scopes.local? scope x :=
  Scopes.local?_rename ρ s.scopes scope x

theorem function?_rename (s : Inference) (scope : ScopeId) (f : String) :
    (s.rename ρ).function? scope (ρ f) = s.function? scope f := by
  simp only [function?, ρ.ofName?_apply, rename, Scopes.function?_rename]

theorem builtins_rename (s : Inference) : (s.rename ρ).builtins = s.builtins :=
  rfl

theorem scopeOf_rename (s : Inference) (node : NodeId) :
    (s.rename ρ).scopes.scopeOf node = s.scopes.scopeOf node :=
  rfl

theorem apply_rename (s : Inference) (sig : Option Signature) (args : List VertexId)
    (result : VertexId) : (s.rename ρ).apply sig args result = (s.apply sig args result).rename ρ := by
  cases sig with
  | none => rfl
  | some sig =>
    simp only [apply, ← flow_rename]
    congr 1
    exact List.foldl_hom (Inference.rename ρ) fun s pair => flow_rename ρ s pair.1 pair.2

mutual

theorem expr_rename (scope : ScopeId) : ∀ (s : Inference) (e : Expr),
    expr scope (s.rename ρ) (e.rename ρ) = ((expr scope s e).1.rename ρ, (expr scope s e).2)
  | _, .number _ _ _ => rfl
  | s, .var id x => by
    simp only [Expr.rename, expr, add_rename, local?_rename, flowFrom?_rename]
  | s, .binary id op left right => by
    simp only [Expr.rename, expr, expr_rename scope s left, expr_rename scope _ right, add_rename,
      builtins_rename, apply_rename]
  | s, .negate id operand => by
    simp only [Expr.rename, expr, expr_rename scope s operand, add_rename, builtins_rename,
      apply_rename]
  | s, .call id f args => by
    simp only [Expr.rename, expr, exprs_rename scope s args, add_rename, function?_rename,
      apply_rename]

theorem exprs_rename (scope : ScopeId) : ∀ (s : Inference) (es : List Expr),
    exprs scope (s.rename ρ) (Expr.renameAll ρ es) =
      ((exprs scope s es).1.rename ρ, (exprs scope s es).2)
  | _, [] => rfl
  | s, e :: rest => by
    simp only [Expr.renameAll, exprs, expr_rename scope s e, exprs_rename scope _ rest]

end

theorem params_rename (body : ScopeId) (s : Inference) (ps : List Param) :
    params body (s.rename ρ) (ps.map (Param.rename ρ)) =
      ((params body s ps).1.rename ρ, (params body s ps).2) := by
  induction ps generalizing s with
  | nil => rfl
  | cons p rest ih =>
    simp only [List.map_cons, params, Param.rename, add_rename, setLocal_rename, ih]

mutual

theorem stmt_rename : ∀ (s : Inference) (stmt : Stmt),
    Inference.stmt (s.rename ρ) (stmt.rename ρ) =
      ((Inference.stmt s stmt).1.rename ρ, (Inference.stmt s stmt).2)
  | s, .define id f ps bodyId body => by
    simp only [Stmt.rename, Inference.stmt, ParamList.rename, add_rename, scopeOf_rename,
      params_rename, define_rename, stmts_rename _ none body, flowFrom?_rename, flow_rename]
  | s, .assign id x value => by
    simp only [Stmt.rename, Inference.stmt, add_rename, scopeOf_rename, expr_rename, flow_rename,
      setLocal_rename]
  | s, .expr e => by
    simp only [Stmt.rename, Inference.stmt, Expr.id_rename, scopeOf_rename, expr_rename]

theorem stmts_rename : ∀ (s : Inference) (last : Option VertexId) (ss : List Stmt),
    stmts (s.rename ρ) last (Stmt.renameAll ρ ss) =
      ((stmts s last ss).1.rename ρ, (stmts s last ss).2)
  | _, _, [] => rfl
  | s, last, first :: rest => by
    simp only [Stmt.renameAll, stmts, stmt_rename s first, stmts_rename _ _ rest]

end

theorem start_rename (scopes : Scopes) : start (scopes.rename ρ) = (start scopes).rename ρ :=
  rfl

theorem endsInDefine_rename : ∀ ss : List Stmt,
    endsInDefine (Stmt.renameAll ρ ss) = endsInDefine ss
  | [] => rfl
  | [s] => by cases s <;> rfl
  | _ :: s :: rest => endsInDefine_rename (s :: rest)

end Inference

theorem Program.flowGraph_rename (p : Program) : (p.rename ρ).flowGraph = p.flowGraph := by
  have hends : Inference.endsInDefine (p.rename ρ).stmts = Inference.endsInDefine p.stmts :=
    Inference.endsInDefine_rename ρ p.stmts
  have hstmts : ∀ s : Inference, Inference.stmts (s.rename ρ) none (p.rename ρ).stmts =
      ((Inference.stmts s none p.stmts).1.rename ρ, (Inference.stmts s none p.stmts).2) :=
    fun s => Inference.stmts_rename ρ s none p.stmts
  have hids : (p.rename ρ).id = p.id ∧ (p.rename ρ).body.id = p.body.id := ⟨rfl, rfl⟩
  simp only [flowGraph, Inference.ofProgram, Scopes.ofProgram_rename, Inference.start_rename,
    Inference.add_rename, hids.1, hids.2, hstmts, hends, Inference.flowFrom?_rename,
    Inference.flow_rename]
  split <;> rfl

end

/-! ## Renamed programs -/

namespace Program

/-- **Names matter up to renaming.** A program with new names, started with variables of new names,
comes to the same value, or to the same error but for the names in it, after the same events but for
the names in them; it prints the same values. It has the same mismatches. -/
theorem renamed_agrees (ρ : Renaming) (p : Program) :
    (∀ locals limit,
      ((p.rename ρ).compile.run (Locals.rename ρ locals) limit).result =
          (p.compile.run locals limit).result.mapError (RuntimeError.rename ρ) ∧
        ((p.rename ρ).compile.run (Locals.rename ρ locals) limit).events =
          (p.compile.run locals limit).events.map (Event.rename ρ) ∧
        ((p.rename ρ).compile.run (Locals.rename ρ locals) limit).printed =
          (p.compile.run locals limit).printed) ∧
    (p.rename ρ).mismatches = p.mismatches := by
  have hcode : (p.rename ρ).compile = Code.rename ρ p.compile := Stmt.compileAll_rename ρ p.stmts
  refine ⟨fun locals limit => ?_, ?_⟩
  · rw [hcode, Code.run_rename]
    refine ⟨?_, rfl, ?_⟩
    · exact congrFun Except.map_id _
    · simp only [Traced.printed, Traced.rename, List.filterMap_map]
      congr 1
      funext event
      cases event <;> rfl
  · rw [mismatches, flowGraph_rename, mismatches]

/-- `x(x) = x + y` and `x = 2`, then `x(x)`: one name for a function, its parameter and a variable. -/
def sharedName : Program :=
  .ofStmts
    [ .define unnumbered "x" { id := unnumbered, params := [{ id := unnumbered, name := "x" }] }
        unnumbered
        [.expr (.binary unnumbered .add (.var unnumbered "x") (.var unnumbered "y"))],
      .assign unnumbered "x" (.number unnumbered 2 none),
      .expr (.call unnumbered "x" [.var unnumbered "x"]) ]

/-- The body misses `y`, and so the renamed one misses `x` when both names are exchanged. What is
defined and called on the way is `y` then, and the mismatches are the same. -/
theorem renamed_agrees_sharedName :
    ((sharedName.rename (.swap "x" "y" rfl rfl)).compile.run {} none).result =
        .error (.unknownVariable "x") ∧
      ((sharedName.rename (.swap "x" "y" rfl rfl)).compile.run {} none).events =
        [.define "y" 1, .call "y" 1] ∧
      (sharedName.rename (.swap "x" "y" rfl rfl)).mismatches = sharedName.mismatches := by
  obtain ⟨hrun, hmismatches⟩ := renamed_agrees (.swap "x" "y" rfl rfl) sharedName
  obtain ⟨hresult, hevents, -⟩ := hrun {} none
  have hmissing : (sharedName.compile.run {} none).result = .error (.unknownVariable "y") := rfl
  have hreported : (sharedName.compile.run {} none).events = [.define "x" 1, .call "x" 1] := rfl
  rw [hmissing] at hresult
  rw [hreported] at hevents
  exact ⟨hresult, hevents, hmismatches⟩

end Program
end Abacus
