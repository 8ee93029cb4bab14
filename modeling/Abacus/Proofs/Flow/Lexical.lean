import Abacus.Proofs.Flow.Edges

/-!
# Lookup is lexical

Scopes are numbered as they open, and the scope of a list inside of another one has the scope of that
one for its parent. So the way from a scope through its parents is the way from a list through the
lists around it, out to the top level (`Scopes.outwards_listsAll`), and as a parent always has the
smaller number the way ends wherever it starts (`Scopes.finds_function?`).

Setting a variable or defining a function changes one entry of one scope and no parent. What is looked
up afterwards, in any order of such updates, is what the last update of the name has stored: for a
variable in the very scope, for a function in the nearest scope on the way out that has one
(`Scopes.lookup_lexical`).
-/
namespace Abacus

/-! ## The lists of a program -/

/-- A statement list where it stands in a program. -/
structure NestedList where
  id : NodeId
  /-- The lists around it, innermost first. -/
  outer : List NodeId
  stmts : List Stmt

mutual

/-- The statement lists inside a statement, in their order, given the lists around it. -/
def Stmt.lists (outer : List NodeId) : Stmt → List NestedList
  | .define _ _ _ bodyId body =>
    { id := bodyId, outer, stmts := body } :: Stmt.listsAll (bodyId :: outer) body
  | .assign _ _ _ => []
  | .expr _ => []

def Stmt.listsAll (outer : List NodeId) : List Stmt → List NestedList
  | [] => []
  | s :: rest => s.lists outer ++ Stmt.listsAll outer rest

end

mutual

/-- The lists inside the statement have scopes from `next` on, and the parents of these are as the
lists stand: the list of a definition has the scope of the definition for its parent. -/
def Stmt.Enclosed (s : Scopes) (scope next : ScopeId) : Stmt → Prop
  | .define _ _ _ _ body =>
    (∃ r, s.scopes[next]? = some r ∧ r.parent = some scope) ∧
      Stmt.EnclosedAll s next (next + 1) body
  | .assign _ _ _ => True
  | .expr _ => True

def Stmt.EnclosedAll (s : Scopes) (scope next : ScopeId) : List Stmt → Prop
  | [] => True
  | stmt :: rest =>
    stmt.Enclosed s scope next ∧ Stmt.EnclosedAll s scope (next + stmt.scopeCount) rest

end

/-- The statement lists of a program, its own first. -/
def Program.lists (p : Program) : List NestedList :=
  { id := p.body.id, outer := [], stmts := p.stmts } :: Stmt.listsAll [p.body.id] p.stmts

namespace Scopes

/-! ## The way outwards -/

/-- The way from a scope through its parents passes these scopes and then ends. -/
inductive Outwards (s : Scopes) : ScopeId → List ScopeId → Prop
  | top {k : ScopeId} {r : Scope} (hscope : s.scopes[k]? = some r) (hparent : r.parent = none) :
    Outwards s k []
  | step {k outer : ScopeId} {r : Scope} {rest : List ScopeId} (hscope : s.scopes[k]? = some r)
    (hparent : r.parent = some outer) (hrest : Outwards s outer rest) : Outwards s k (outer :: rest)

/-- The search for a function from a scope outwards ends with this. It stops at the first scope that
has the function, behind the last one, and where there is no scope. -/
inductive Finds (s : Scopes) (f : String) : ScopeId → Option Signature → Prop
  | missing {k : ScopeId} (hscope : s.scopes[k]? = none) : Finds s f k none
  | own {k : ScopeId} {r : Scope} {sig : Signature} (hscope : s.scopes[k]? = some r)
    (hown : r.functions.get? f = some sig) : Finds s f k (some sig)
  | top {k : ScopeId} {r : Scope} (hscope : s.scopes[k]? = some r)
    (hown : r.functions.get? f = none) (hparent : r.parent = none) : Finds s f k none
  | outer {k outer : ScopeId} {r : Scope} {result : Option Signature} (hscope : s.scopes[k]? = some r)
    (hown : r.functions.get? f = none) (hparent : r.parent = some outer)
    (hrest : Finds s f outer result) : Finds s f k result

theorem ownFunction?_eq {s : Scopes} {k : ScopeId} {r : Scope} (h : s.scopes[k]? = some r)
    (f : String) : s.ownFunction? k f = r.functions.get? f := by
  rw [ownFunction?, h]
  rfl

/-- On the way outwards the nearest function is found. -/
theorem Finds.eq_findSome? {s : Scopes} {f : String} {k : ScopeId} {way : List ScopeId}
    {result : Option Signature} (h : s.Finds f k result) (hway : s.Outwards k way) :
    result = (k :: way).findSome? fun scope => s.ownFunction? scope f := by
  induction h generalizing way with
  | missing hscope =>
    cases hway with
    | top h' => rw [hscope] at h'; cases h'
    | step h' => rw [hscope] at h'; cases h'
  | own hscope hown =>
    rw [List.findSome?_cons, ownFunction?_eq hscope, hown]
  | top hscope hown hparent =>
    cases hway with
    | top _ _ => rw [List.findSome?_cons, ownFunction?_eq hscope, hown, List.findSome?_nil]
    | step h' hparent' _ =>
      obtain rfl := Option.some.inj (hscope.symm.trans h')
      rw [hparent] at hparent'
      cases hparent'
  | outer hscope hown hparent _ ih =>
    cases hway with
    | top h' hparent' =>
      obtain rfl := Option.some.inj (hscope.symm.trans h')
      rw [hparent] at hparent'
      cases hparent'
    | step h' hparent' hrest =>
      obtain rfl := Option.some.inj (hscope.symm.trans h')
      obtain rfl := Option.some.inj (hparent.symm.trans hparent')
      rw [ih hrest]
      conv_rhs => rw [List.findSome?_cons, ownFunction?_eq hscope, hown]

/-! ## Parents come first -/

/-- A parent has the smaller number. -/
def Ordered (s : Scopes) : Prop :=
  ∀ (k : Nat) (r : Scope) (outer : Nat),
    s.scopes[k]? = some r → r.parent = some outer → outer < k

/-- As many turns as the number of the scope are enough to get out of it. -/
theorem Ordered.finds_functionIn {s : Scopes} (h : s.Ordered) (f : String) {depth : Nat} :
    ∀ {k : Nat}, k < depth → s.Finds f k (s.functionIn f depth k) := by
  induction depth with
  | zero => exact fun hk => absurd hk (Nat.not_lt_zero _)
  | succ depth ih =>
    intro k hk
    rw [functionIn]
    cases hscope : s.scopes[k]? with
    | none => exact .missing hscope
    | some r =>
      simp only [Option.bind_eq_bind, Option.bind_some]
      cases hown : r.functions.get? f with
      | some sig => exact .own hscope hown
      | none =>
        cases hparent : r.parent with
        | none => exact .top hscope hown hparent
        | some outer =>
          have hlt := h k r outer hscope hparent
          exact .outer hscope hown hparent (ih (by omega))

/-- The search ends wherever it starts, and what it ends with is what is looked up. -/
theorem Ordered.finds_function? {s : Scopes} (h : s.Ordered) (f : String) (k : Nat) :
    s.Finds f k (s.function? k f) := by
  by_cases hk : k < s.scopes.size
  · exact h.finds_functionIn f hk
  · have hscope : s.scopes[k]? = none := Array.getElem?_eq_none (Nat.le_of_not_lt hk)
    have hnone : s.function? k f = none := by
      unfold function?
      cases s.scopes.size with
      | zero => rfl
      | succ depth => rw [functionIn, hscope]; rfl
    rw [hnone]
    exact .missing hscope

theorem Ordered.openScope {s : Scopes} (h : s.Ordered) {parent : Option ScopeId}
    (hparent : ∀ outer, parent = some outer → outer < s.scopes.size) (list : NodeId) :
    (s.openScope parent list).Ordered := by
  intro k r outer hscope hr
  simp only [Scopes.openScope, Array.getElem?_push] at hscope
  split at hscope
  next hk =>
    obtain rfl := Option.some.inj hscope
    rw [hk]
    exact hparent outer hr
  next => exact h k r outer hscope hr

mutual

theorem ordered_addStmt {scope : Nat} : ∀ {s : Scopes} (stmt : Stmt), s.Ordered →
    scope < s.scopes.size → (addStmt scope s stmt).Ordered
  | s, .define id _ _ bodyId body, h, hscope => by
    have hplace : (s.place id scope).Ordered := h
    refine ordered_addStmts body (hplace.openScope ?_ bodyId) ?_
    · rintro outer ⟨⟩
      exact hscope
    · simp only [openScope, place, Array.size_push]
      omega
  | _, .assign _ _ _, h, _ => h
  | _, .expr _, h, _ => h

theorem ordered_addStmts {scope : Nat} : ∀ {s : Scopes} (stmts : List Stmt), s.Ordered →
    scope < s.scopes.size → (addStmts scope s stmts).Ordered
  | _, [], h, _ => h
  | s, stmt :: rest, h, hscope => by
    refine ordered_addStmts rest (ordered_addStmt stmt h hscope) ?_
    rw [size_addStmt]
    omega

end

theorem ordered_ofProgram (p : Program) : (ofProgram p).Ordered := by
  have hempty : empty.Ordered := by
    intro k r outer hscope
    cases hscope
  have hopen : (empty.openScope none p.body.id).Ordered := by
    refine hempty.openScope ?_ p.body.id
    rintro outer ⟨⟩
  exact ordered_addStmts p.stmts hopen Nat.one_pos

/-! ## Lists and their scopes -/

/-- Scopes that are there keep their records. -/
def Extends (s t : Scopes) : Prop :=
  ∀ k : Nat, k < s.scopes.size → t.scopes[k]? = s.scopes[k]?

mutual

theorem extends_addStmt (scope : ScopeId) : ∀ (s : Scopes) (stmt : Stmt),
    s.Extends (addStmt scope s stmt)
  | s, .define id _ _ bodyId body, k, hk => by
    have hopen := extends_addStmts s.scopes.size ((s.place id scope).openScope (some scope) bodyId) body k
    simp only [openScope, place, Array.size_push] at hopen
    refine (hopen (by omega)).trans ?_
    rw [Array.getElem?_push, if_neg (by omega)]
  | _, .assign _ _ _, _, _ => rfl
  | _, .expr _, _, _ => rfl

theorem extends_addStmts (scope : ScopeId) : ∀ (s : Scopes) (stmts : List Stmt),
    s.Extends (addStmts scope s stmts)
  | _, [], _, _ => rfl
  | s, stmt :: rest, k, hk => by
    have hlt : k < (addStmt scope s stmt).scopes.size := by
      rw [size_addStmt]
      omega
    exact (extends_addStmts scope _ rest k hlt).trans (extends_addStmt scope s stmt k hk)

end

mutual

theorem enclosed_mono {s t : Scopes} : ∀ {stmt : Stmt} {scope next : Nat},
    stmt.Enclosed s scope next → next + stmt.scopeCount ≤ s.scopes.size → s.Extends t →
      stmt.Enclosed t scope next
  | .define _ _ _ _ body, scope, next, ⟨⟨r, hr, hparent⟩, hbody⟩, hsize, h => by
    rw [Stmt.scopeCount] at hsize
    exact ⟨⟨r, (h next (by omega)).trans hr, hparent⟩, enclosedAll_mono hbody (by omega) h⟩
  | .assign _ _ _, _, _, _, _, _ => trivial
  | .expr _, _, _, _, _, _ => trivial

theorem enclosedAll_mono {s t : Scopes} : ∀ {ss : List Stmt} {scope next : Nat},
    Stmt.EnclosedAll s scope next ss → next + Stmt.scopeCountAll ss ≤ s.scopes.size → s.Extends t →
      Stmt.EnclosedAll t scope next ss
  | [], _, _, _, _, _ => trivial
  | stmt :: rest, _, _, ⟨hstmt, hrest⟩, hsize, h => by
    rw [Stmt.scopeCountAll] at hsize
    exact ⟨enclosed_mono hstmt (by omega) h, enclosedAll_mono hrest (by omega) h⟩

end

mutual

theorem enclosed_addStmt (scope : Nat) : ∀ (s : Scopes) (stmt : Stmt),
    stmt.Enclosed (addStmt scope s stmt) scope s.scopes.size
  | s, .define id _ _ bodyId body => by
    have hopen : ((s.place id scope).openScope (some scope) bodyId).scopes.size =
        s.scopes.size + 1 := Array.size_push ..
    have hbody := enclosed_addStmts s.scopes.size
      ((s.place id scope).openScope (some scope) bodyId) body
    have hnew : ((s.place id scope).openScope (some scope) bodyId).scopes[s.scopes.size]? =
        some { parent := some scope, locals := {}, functions := {} } := Array.getElem?_push_size
    rw [hopen] at hbody
    unfold addStmt
    exact ⟨⟨_, (extends_addStmts _ _ body _ (by omega)).trans hnew, rfl⟩, hbody⟩
  | _, .assign _ _ _ => trivial
  | _, .expr _ => trivial

theorem enclosed_addStmts (scope : Nat) : ∀ (s : Scopes) (stmts : List Stmt),
    Stmt.EnclosedAll (addStmts scope s stmts) scope s.scopes.size stmts
  | _, [] => trivial
  | s, stmt :: rest => by
    have hrest := enclosed_addStmts scope (addStmt scope s stmt) rest
    rw [size_addStmt] at hrest
    refine ⟨enclosed_mono (enclosed_addStmt scope s stmt) ?_ (extends_addStmts scope _ rest), hrest⟩
    exact Nat.le_of_eq (size_addStmt scope s stmt).symm

end

/-! ### What the numbers say -/

section
variable {s : Scopes}

mutual

theorem scopes_lists (outer : List NodeId) : ∀ {stmt : Stmt} {scope next : Nat},
    stmt.Placed s.ofNode scope next →
      (stmt.lists outer).map (fun l => s.scopeOf l.id) = List.range' next stmt.scopeCount
  | .define _ _ _ bodyId body, scope, next, ⟨_, hbodyId, hbody⟩ => by
    rw [Stmt.lists, List.map_cons, scopes_listsAll _ hbody, Inference.scopeOf_eq hbodyId,
      Stmt.scopeCount, Nat.add_comm 1, List.range'_succ]
  | .assign _ _ _, _, _, _ => rfl
  | .expr _, _, _, _ => rfl

theorem scopes_listsAll (outer : List NodeId) : ∀ {ss : List Stmt} {scope next : Nat},
    Stmt.PlacedAll s.ofNode scope next ss →
      (Stmt.listsAll outer ss).map (fun l => s.scopeOf l.id) =
        List.range' next (Stmt.scopeCountAll ss)
  | [], _, _, _ => rfl
  | stmt :: rest, _, next, ⟨hstmt, hrest⟩ => by
    rw [Stmt.listsAll, List.map_append, scopes_lists outer hstmt, scopes_listsAll outer hrest,
      Stmt.scopeCountAll, ← List.range'_append_1]

end

/-- A statement stands in the scope it is placed in. -/
theorem scopeOf_of_placedAll {ss : List Stmt} {scope next : Nat}
    (h : Stmt.PlacedAll s.ofNode scope next ss) : ∀ stmt ∈ ss, s.scopeOf stmt.id = scope := by
  induction ss generalizing next with
  | nil => exact nofun
  | cons first rest ih =>
    obtain ⟨hfirst, hrest⟩ := h
    intro stmt hstmt
    rcases List.mem_cons.mp hstmt with rfl | hstmt
    · cases stmt with
      | define => exact Inference.scopeOf_eq hfirst.1
      | assign => exact Inference.scopeOf_eq hfirst
      | expr => exact Inference.scopeOf_eq hfirst
    · exact ih hrest stmt hstmt

/-- The list has its statements in its scope, and the way out of the scope leads through the scopes of
the lists around it. -/
structure Holds (s : Scopes) (l : NestedList) : Prop where
  stmts : ∀ stmt ∈ l.stmts, s.scopeOf stmt.id = s.scopeOf l.id
  outwards : s.Outwards (s.scopeOf l.id) (l.outer.map s.scopeOf)

mutual

theorem holds_lists {id : NodeId} {outer : List NodeId} : ∀ {stmt : Stmt} {scope next : Nat},
    stmt.Placed s.ofNode scope next → stmt.Enclosed s scope next → s.scopeOf id = scope →
      s.Outwards scope (outer.map s.scopeOf) → ∀ l ∈ stmt.lists (id :: outer), s.Holds l
  | .define _ _ _ bodyId body, scope, next, ⟨_, hbodyId, hbody⟩, ⟨⟨r, hr, hparent⟩, hin⟩, hid, hout,
      l, hl => by
    have hnext := Inference.scopeOf_eq hbodyId
    have hway : s.Outwards next ((id :: outer).map s.scopeOf) := by
      rw [List.map_cons, hid]
      exact .step hr hparent hout
    rcases List.mem_cons.mp hl with rfl | hl
    · refine ⟨fun stmt hstmt => ?_, ?_⟩
      · exact (scopeOf_of_placedAll hbody stmt hstmt).trans hnext.symm
      · rw [hnext]
        exact hway
    · exact holds_listsAll hbody hin hnext hway l hl
  | .assign _ _ _, _, _, _, _, _, _, _, hl => nomatch hl
  | .expr _, _, _, _, _, _, _, _, hl => nomatch hl

theorem holds_listsAll {id : NodeId} {outer : List NodeId} : ∀ {ss : List Stmt} {scope next : Nat},
    Stmt.PlacedAll s.ofNode scope next ss → Stmt.EnclosedAll s scope next ss → s.scopeOf id = scope →
      s.Outwards scope (outer.map s.scopeOf) → ∀ l ∈ Stmt.listsAll (id :: outer) ss, s.Holds l
  | [], _, _, _, _, _, _, _, hl => nomatch hl
  | stmt :: rest, _, _, ⟨hstmt, hrest⟩, ⟨hin, hinRest⟩, hid, hout, l, hl => by
    rcases List.mem_append.mp hl with hl | hl
    · exact holds_lists hstmt hin hid hout l hl
    · exact holds_listsAll hrest hinRest hid hout l hl

end

end

/-! ## Updates -/

/-- What a walk over a program stores in the scopes. -/
inductive Update where
  | setLocal (scope : ScopeId) (name : String) (vertex : VertexId)
  | define (scope : ScopeId) (name : String) (signature : Signature)

def update (s : Scopes) : Update → Scopes
  | .setLocal scope name vertex => s.setLocal scope name vertex
  | .define scope name signature => s.define scope name signature

def updateAll (s : Scopes) (updates : List Update) : Scopes :=
  updates.foldl update s

namespace Update

/-- The vertex that an update gives to a variable. -/
def local? (scope : ScopeId) (name : String) : Update → Option VertexId
  | setLocal k x vertex => if k = scope ∧ x = name then some vertex else none
  | define _ _ _ => none

/-- The signature that an update gives to a function. -/
def function? (scope : ScopeId) (name : String) : Update → Option Signature
  | setLocal _ _ _ => none
  | define k f signature => if k = scope ∧ f = name then some signature else none

/-- The vertex that a variable is given last. -/
def lastLocal? (updates : List Update) (scope : ScopeId) (name : String) : Option VertexId :=
  updates.reverse.findSome? (local? scope name)

/-- The signature that a function is given last. -/
def lastFunction? (updates : List Update) (scope : ScopeId) (name : String) : Option Signature :=
  updates.reverse.findSome? (function? scope name)

end Update

section
variable (s : Scopes)

theorem size_update (u : Update) : (s.update u).scopes.size = s.scopes.size := by
  cases u with
  | setLocal scope x v => exact s.size_setLocal scope x v
  | define scope f sig => exact s.size_define scope f sig

theorem local?_update {k : ScopeId} (hk : k < s.scopes.size) (x : String) (u : Update) :
    (s.update u).local? k x = (u.local? k x).or (s.local? k x) := by
  cases u with
  | setLocal scope y v =>
    rw [update, local?_setLocal, Update.local?]
    simp only [hk, and_true]
    split <;> rfl
  | define scope f sig => exact s.local?_define scope k f x sig

theorem ownFunction?_update {k : ScopeId} (hk : k < s.scopes.size) (f : String) (u : Update) :
    (s.update u).ownFunction? k f = (u.function? k f).or (s.ownFunction? k f) := by
  cases u with
  | setLocal scope x v => exact s.ownFunction?_setLocal scope k x f v
  | define scope g sig =>
    rw [update, ownFunction?_define, Update.function?]
    simp only [hk, and_true]
    split <;> rfl

/-- An update changes no parent. -/
theorem exists_scope_update {k : ScopeId} {r : Scope} (hr : s.scopes[k]? = some r) (u : Update) :
    ∃ r', (s.update u).scopes[k]? = some r' ∧ r'.parent = r.parent := by
  have hmodify : ∀ (scope : ScopeId) (g : Scope → Scope), (∀ r, (g r).parent = r.parent) →
      ∃ r', (s.scopes.modify scope g)[k]? = some r' ∧ r'.parent = r.parent := by
    intro scope g hg
    rw [Array.getElem?_modify, hr]
    split
    · exact ⟨g r, rfl, hg r⟩
    · exact ⟨r, rfl, rfl⟩
  cases u with
  | setLocal scope x v => exact hmodify scope _ fun _ => rfl
  | define scope f sig => exact hmodify scope _ fun _ => rfl

end

section
variable {s : Scopes}

theorem Outwards.update {k : ScopeId} {way : List ScopeId} (h : s.Outwards k way) (u : Update) :
    (s.update u).Outwards k way := by
  induction h with
  | top hscope hparent =>
    obtain ⟨r', hr', heq⟩ := s.exists_scope_update hscope u
    exact .top hr' (heq.trans hparent)
  | step hscope hparent _ ih =>
    obtain ⟨r', hr', heq⟩ := s.exists_scope_update hscope u
    exact .step hr' (heq.trans hparent) ih

theorem Ordered.update (h : s.Ordered) (u : Update) : (s.update u).Ordered := by
  intro k r' outer hr' houter
  have hlt : k < s.scopes.size := by
    have hsize := (Array.getElem?_eq_some_iff.mp hr').1
    rwa [size_update] at hsize
  obtain ⟨r'', hr'', heq⟩ := s.exists_scope_update (Array.getElem?_eq_getElem hlt) u
  obtain rfl := Option.some.inj (hr'.symm.trans hr'')
  exact h k _ outer (Array.getElem?_eq_getElem hlt) (heq.symm.trans houter)

end

/-- What holds and survives one update survives all of them. -/
theorem updateAll_induct {motive : Scopes → Prop} {s : Scopes} (hs : motive s)
    (hupdate : ∀ s u, motive s → motive (s.update u)) (updates : List Update) :
    motive (s.updateAll updates) :=
  List.foldlRecOn updates update hs fun t ht u _ => hupdate t u ht

/-- What is read of a scope after updates is what the last update has stored, and what was read before
if there is none. -/
theorem read_updateAll {α : Type} (read : Scopes → Option α) {stored : Update → Option α} {n : Nat}
    (hread : ∀ s u, n = s.scopes.size → read (s.update u) = (stored u).or (read s)) {s : Scopes}
    (hs : n = s.scopes.size) (updates : List Update) :
    read (s.updateAll updates) = (updates.reverse.findSome? stored).or (read s) := by
  induction updates generalizing s with
  | nil => rfl
  | cons u rest ih =>
    have hsize := hs.trans (s.size_update u).symm
    rw [updateAll, List.foldl_cons, ← updateAll, ih hsize, hread s u hs, List.reverse_cons,
      List.findSome?_append, List.findSome?_singleton, Option.or_assoc]

theorem local?_updateAll (s : Scopes) {k : ScopeId} (hk : k < s.scopes.size) (x : String)
    (updates : List Update) :
    (s.updateAll updates).local? k x = (Update.lastLocal? updates k x).or (s.local? k x) :=
  read_updateAll (fun t => t.local? k x)
    (fun t u ht => t.local?_update (ht ▸ hk) x u) rfl updates

theorem ownFunction?_updateAll (s : Scopes) {k : ScopeId} (hk : k < s.scopes.size) (f : String)
    (updates : List Update) :
    (s.updateAll updates).ownFunction? k f =
      (Update.lastFunction? updates k f).or (s.ownFunction? k f) :=
  read_updateAll (fun t => t.ownFunction? k f)
    (fun t u ht => t.ownFunction?_update (ht ▸ hk) f u) rfl updates

/-! ## Programs -/

theorem Outwards.lt_size {s : Scopes} {k : ScopeId} {way : List ScopeId} (h : s.Outwards k way) :
    ∀ scope ∈ k :: way, scope < s.scopes.size := by
  induction h with
  | top hscope _ =>
    intro scope hmem
    obtain rfl := List.mem_singleton.mp hmem
    exact (Array.getElem?_eq_some_iff.mp hscope).1
  | step hscope _ _ ih =>
    intro scope hmem
    rcases List.mem_cons.mp hmem with rfl | hmem
    · exact (Array.getElem?_eq_some_iff.mp hscope).1
    · exact ih scope hmem

section
variable {p : Program} (h : p.nodeIds.Nodup)
include h

theorem scopeOf_body : (ofProgram p).scopeOf p.body.id = 0 := by
  have hbody : p.body.id ∉ Stmt.nodeIdsAll p.stmts :=
    (List.nodup_cons.mp (List.nodup_cons.mp h).2).1
  refine Inference.scopeOf_eq ?_
  rw [ofProgram, get?_addStmts _ _ _ _ hbody]
  exact Table.get?_insert_self _ _ _

/-- Every list has the scope with its place among the lists for a number. -/
theorem scopes_ofProgram :
    p.lists.map (fun l => (ofProgram p).scopeOf l.id) = List.range (ofProgram p).scopes.size := by
  have hsize : (ofProgram p).scopes.size = 1 + Stmt.scopeCountAll p.stmts := size_addStmts _ _ _
  rw [Program.lists, List.map_cons, scopes_listsAll _ (placed_ofProgram h), scopeOf_body h, hsize,
    List.range_eq_range', Nat.add_comm, List.range'_succ]

theorem holds_ofProgram : ∀ l ∈ p.lists, (ofProgram p).Holds l := by
  have hplaced := placed_ofProgram h
  have hopen : (empty.openScope none p.body.id).Extends (ofProgram p) :=
    extends_addStmts 0 (empty.openScope none p.body.id) p.stmts
  have hout : (ofProgram p).Outwards 0 (([] : List NodeId).map (ofProgram p).scopeOf) :=
    .top (hopen 0 Nat.one_pos) rfl
  have hbody := scopeOf_body h
  intro l hl
  rcases List.mem_cons.mp hl with rfl | hl
  · refine ⟨fun stmt hstmt => ?_, ?_⟩
    · exact (scopeOf_of_placedAll hplaced stmt hstmt).trans hbody.symm
    · rw [hbody]
      exact hout
  · exact holds_listsAll hplaced (enclosed_addStmts 0 _ p.stmts) hbody hout l hl

end

/-- **Lookup is lexical.** Let the ids of a program be different. Then its statement lists have the
scopes there are, each one its own; a statement is in the scope of the list that holds it; and the way
from the scope of a list through the parents passes the scopes of the lists around it, innermost
first, and ends at the top level.

Now let variables be set and functions be defined in any order. A scope has for a variable what was
last stored in it under the name, and for the way out of the scope of a list the function is what was
last defined under the name in the nearest scope that has one. The search for a function ends,
wherever it starts. -/
theorem lookup_lexical {p : Program} (h : p.nodeIds.Nodup) :
    p.lists.map (fun l => (ofProgram p).scopeOf l.id) = List.range (ofProgram p).scopes.size ∧
    (∀ l ∈ p.lists, ∀ stmt ∈ l.stmts,
      (ofProgram p).scopeOf stmt.id = (ofProgram p).scopeOf l.id) ∧
    (∀ l ∈ p.lists, (ofProgram p).Outwards ((ofProgram p).scopeOf l.id)
      (l.outer.map (ofProgram p).scopeOf)) ∧
    ∀ updates : List Update,
      (∀ k < (ofProgram p).scopes.size, ∀ x,
        ((ofProgram p).updateAll updates).local? k x = Update.lastLocal? updates k x) ∧
      (∀ l ∈ p.lists, ∀ f,
        ((ofProgram p).updateAll updates).function? ((ofProgram p).scopeOf l.id) f =
          ((l.id :: l.outer).map (ofProgram p).scopeOf).findSome? fun k =>
            Update.lastFunction? updates k f) ∧
      ∀ k f, ((ofProgram p).updateAll updates).Finds f k
        (((ofProgram p).updateAll updates).function? k f) := by
  have hbare := bare_ofProgram p
  have hholds := holds_ofProgram h
  refine ⟨scopes_ofProgram h, fun l hl => (hholds l hl).stmts, fun l hl => (hholds l hl).outwards,
    fun updates => ?_⟩
  have hordered : ((ofProgram p).updateAll updates).Ordered :=
    updateAll_induct (ordered_ofProgram p) (fun _ u ht => ht.update u) updates
  refine ⟨fun k hk x => ?_, fun l hl f => ?_, fun k f => hordered.finds_function? f k⟩
  · rw [local?_updateAll _ hk, hbare.locals, Option.or_none]
  · have hway := (hholds l hl).outwards
    have hwayAfter : ((ofProgram p).updateAll updates).Outwards ((ofProgram p).scopeOf l.id)
        (l.outer.map (ofProgram p).scopeOf) :=
      updateAll_induct (motive := fun t => t.Outwards _ _) hway (fun _ u ht => ht.update u) updates
    rw [(hordered.finds_function? f _).eq_findSome? hwayAfter, ← List.map_cons,
      ← List.head?_filterMap, ← List.head?_filterMap]
    refine congrArg List.head? (List.filterMap_congr fun k hk => ?_)
    rw [ownFunction?_updateAll _ (hway.lt_size k hk), hbare.functions, Option.or_none]

/-- `f(x) = { g(y) = y; g(x) }` and then `g(z) = z`. -/
def twoDefinitions : Program :=
  let params := fun x => { id := unnumbered, params := [{ id := unnumbered, name := x }] }
  .ofStmts
    [ .define unnumbered "f" (params "x") unnumbered
        [ .define unnumbered "g" (params "y") unnumbered [.expr (.var unnumbered "y")],
          .expr (.call unnumbered "g" [.var unnumbered "x"]) ],
      .define unnumbered "g" (params "z") unnumbered [.expr (.var unnumbered "z")] ]

/-- `g` is defined in the outermost scope and twice in the body of `f`, and `x` is set there. -/
def someUpdates : List Update :=
  [ .define 1 "g" { function := 0, params := [], returns := 1 },
    .setLocal 1 "x" 2,
    .define 0 "g" { function := 3, params := [], returns := 4 },
    .define 1 "g" { function := 5, params := [], returns := 6 } ]

/-- From the body of the inner `g` the second definition in the body of `f` is seen, and the variable
of that body is not. -/
theorem lookup_lexical_twoDefinitions :
    twoDefinitions.nodeIds.Nodup ∧
      twoDefinitions.lists.map (fun l => (ofProgram twoDefinitions).scopeOf l.id) = [0, 1, 2, 3] ∧
      (ofProgram twoDefinitions).Outwards 2 [1, 0] ∧
      ((ofProgram twoDefinitions).updateAll someUpdates).function? 2 "g" =
        some { function := 5, params := [], returns := 6 } ∧
      ((ofProgram twoDefinitions).updateAll someUpdates).local? 2 "x" = none := by
  have hids : twoDefinitions.nodeIds.Nodup := by decide
  obtain ⟨hscopes, -, hways, hafter⟩ := lookup_lexical hids
  obtain ⟨hlocals, hfunctions, -⟩ := hafter someUpdates
  have hinner : { id := 9, outer := [5, 1], stmts := [.expr (.var 10 "y")] } ∈ twoDefinitions.lists :=
    List.mem_of_getElem? (rfl : twoDefinitions.lists[2]? = some _)
  exact ⟨hids, hscopes, hways _ hinner, hfunctions _ hinner "g", hlocals 2 (by decide) "x"⟩

end Scopes
end Abacus
