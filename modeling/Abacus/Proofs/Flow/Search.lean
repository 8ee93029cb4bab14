import Abacus.Flow.Graph
import Mathlib.Data.List.Perm.Subperm
import Mathlib.Data.List.Forall2
import Mathlib.Data.List.Range
import Mathlib.Data.List.Sort

/-!
# Searching a flow graph

A search has visited all it can reach after as many turns as there are vertices, and one: each turn
but the last visits a vertex for the first time (`level_search`), and further turns change nothing.
In a graph in which values flow into unknown vertices and numbers only (`Calm`), a vertex clashes
with another only if it is undefined (`clashes_eq_nil`).

`Folds` relates two such graphs of which the one lacks some vertices of the other: those are unknown
or numbers, and no value gets into them but numbers. Then a search from an undefined vertex goes
through both in the same way, and the graphs have the same mismatches (`Folds.mismatches_eq`).
-/
namespace Abacus.FlowGraph

variable (g : FlowGraph)

theorem mem_successors {v t : VertexId} : t ∈ g.successors v ↔ (v, t) ∈ g.edges := by
  unfold successors
  rw [List.mem_filterMap]
  constructor
  · rintro ⟨⟨a, b⟩, hedge, hif⟩
    split at hif <;> cases hif
    next h => obtain rfl := h; exact Array.mem_toList_iff.mp hedge
  · intro h
    exact ⟨(v, t), Array.mem_toList_iff.mpr h, if_pos rfl⟩

theorem kind?_lt_size {v : VertexId} {kind : Kind} (h : g.kind? v = some kind) : v < g.size := by
  unfold kind? at h
  obtain ⟨r, hr, -⟩ := Option.map_eq_some_iff.mp h
  exact (Array.getElem?_eq_some_iff.mp hr).1

/-! ## Turns of a search -/

section
variable {g} {kind : Kind}

theorem search_of_level_nil {s : Search} (h : s.level = []) (turns : Nat) :
    g.search kind turns s = s := by
  cases turns with
  | zero => rfl
  | succ turns => unfold search; rw [h]

theorem search_succ {s : Search} (turns : Nat) (h : s.level ≠ []) :
    g.search kind (turns + 1) s =
      g.search kind turns (s.level.foldl (g.visit kind) { s with level := [] }) := by
  rw [search]
  split
  next hnil => exact absurd hnil h
  next => rfl

theorem search_add (m n : Nat) (s : Search) :
    g.search kind (m + n) s = g.search kind n (g.search kind m s) := by
  induction m generalizing s with
  | zero => rw [Nat.zero_add]; rfl
  | succ m ih =>
    by_cases hlevel : s.level = []
    · rw [search_of_level_nil hlevel, search_of_level_nil hlevel, search_of_level_nil hlevel]
    · rw [Nat.add_right_comm, search_succ _ hlevel, search_succ _ hlevel, ih]

/-- A search in which every vertex is one of the graph and none is visited twice. -/
structure Search.Within (g : FlowGraph) (s : Search) : Prop where
  nodup : s.visited.Nodup
  visited : ∀ v ∈ s.visited, v < g.size
  level : ∀ v ∈ s.level, v < g.size

/-- There are no more different vertices than the graph has. -/
theorem length_le_size {vs : List VertexId} (hnodup : vs.Nodup) (h : ∀ v ∈ vs, v < g.size) :
    vs.length ≤ g.size := by
  have hsub : vs ⊆ List.range g.size := fun v hv => List.mem_range.mpr (h v hv)
  have hle := (List.subperm_of_subset hnodup hsub).length_le
  rwa [List.length_range] at hle

/-- The first visit to a vertex. -/
theorem visit_first (kind : Kind) {s : Search} {v : VertexId} (hv : v ∉ s.visited) :
    (g.visit kind s v).visited = v :: s.visited ∧ (g.visit kind s v).level =
      s.level ++ if g.kind? v = some .unknown then g.successors v else [] := by
  unfold visit
  rw [if_neg hv]
  constructor
  · cases g.kind? v with
    | none => rfl
    | some k => cases k <;> dsimp only <;> split <;> rfl
  · cases g.kind? v with
    | none => simp
    | some k =>
      cases k with
      | unknown => simp
      | _ => dsimp only; split <;> simp

/-- What a visit does to the vertices that were visited: nothing, or it visits one more. -/
theorem visit_cases (kind : Kind) (s : Search) (v : VertexId) :
    g.visit kind s v = s ∨ v ∉ s.visited ∧ (g.visit kind s v).visited = v :: s.visited ∧
      (g.visit kind s v).level =
        s.level ++ if g.kind? v = some .unknown then g.successors v else [] := by
  by_cases hv : v ∈ s.visited
  · exact .inl (if_pos hv)
  · exact .inr ⟨hv, g.visit_first kind hv⟩

theorem Search.Within.visit {s : Search} (h : s.Within g) (kind : Kind)
    (hg : ∀ edge ∈ g.edges, edge.2 < g.size) {v : VertexId} (hv : v < g.size) :
    (g.visit kind s v).Within g := by
  rcases g.visit_cases kind s v with heq | ⟨hnew, hvisited, hlevel⟩
  · rwa [heq]
  · refine ⟨?_, fun w hw => ?_, fun w hw => ?_⟩
    · rw [hvisited]
      exact List.nodup_cons.mpr ⟨hnew, h.nodup⟩
    · rw [hvisited] at hw
      rcases List.mem_cons.mp hw with rfl | hmem
      · exact hv
      · exact h.visited w hmem
    · rw [hlevel] at hw
      rcases List.mem_append.mp hw with hold | hsucc
      · exact h.level w hold
      · split at hsucc
        · exact hg (v, w) (g.mem_successors.mp hsucc)
        · exact absurd hsucc List.not_mem_nil

/-- A level of visits changes nothing or visits a vertex for the first time. -/
theorem visits (kind : Kind) (hg : ∀ edge ∈ g.edges, edge.2 < g.size) (vs : List VertexId) {s : Search}
    (h : s.Within g) (hvs : ∀ v ∈ vs, v < g.size) :
    (vs.foldl (g.visit kind) s).Within g ∧
      (vs.foldl (g.visit kind) s = s ∨
        s.visited.length < (vs.foldl (g.visit kind) s).visited.length) := by
  induction vs generalizing s with
  | nil => exact ⟨h, .inl rfl⟩
  | cons v rest ih =>
    have hv := hvs v List.mem_cons_self
    obtain ⟨hwithin, hrest⟩ := ih (h.visit kind hg hv) fun w hw =>
      hvs w (List.mem_cons_of_mem _ hw)
    refine ⟨hwithin, ?_⟩
    rw [List.foldl_cons]
    rcases g.visit_cases kind s v with heq | ⟨-, hvisited, -⟩
    · rw [heq] at hrest ⊢
      exact hrest
    · have hlength : s.visited.length < (g.visit kind s v).visited.length := by
        rw [hvisited]
        exact Nat.lt_succ_self _
      refine .inr ?_
      rcases hrest with heq | hlt
      · rwa [heq]
      · exact Nat.lt_trans hlength hlt

/-- After enough turns there is nothing left to visit. -/
theorem level_search (kind : Kind) (hg : ∀ edge ∈ g.edges, edge.2 < g.size) (turns : Nat) {s : Search}
    (h : s.Within g) (hturns : g.size < s.visited.length + turns) :
    (g.search kind turns s).level = [] := by
  induction turns generalizing s with
  | zero =>
    have hle := length_le_size h.nodup h.visited
    omega
  | succ turns ih =>
    by_cases hlevel : s.level = []
    · rw [search_of_level_nil hlevel]
      exact hlevel
    · rw [search_succ _ hlevel]
      have hstart : Search.Within g { s with level := [] } := ⟨h.nodup, h.visited, nofun⟩
      obtain ⟨hwithin, hrest⟩ := visits kind hg s.level hstart h.level
      rcases hrest with heq | hlt
      · rw [heq, search_of_level_nil rfl]
      · refine ih hwithin ?_
        change s.visited.length < _ at hlt
        omega

end

/-! ## Graphs in which only undefined vertices clash -/

/-- Values flow into unknown vertices and numbers, and none out of a function. -/
structure Calm (g : FlowGraph) : Prop where
  sources : ∀ edge ∈ g.edges, g.kind? edge.1 ≠ some .function
  targets : ∀ edge ∈ g.edges, g.kind? edge.2 = some .unknown ∨ g.kind? edge.2 = some .number

namespace Calm

variable {g} (h : g.Calm)
include h

theorem target_lt {edge : VertexId × VertexId} (hedge : edge ∈ g.edges) : edge.2 < g.size :=
  (h.targets edge hedge).elim g.kind?_lt_size g.kind?_lt_size

/-- A search from a number meets with nothing but unknown vertices and numbers. -/
theorem visit_number {s : Search} {v : VertexId}
    (hv : g.kind? v = some .unknown ∨ g.kind? v = some .number)
    (hs : s.clashing = [] ∧ ∀ w ∈ s.level, g.kind? w = some .unknown ∨ g.kind? w = some .number) :
    (g.visit .number s v).clashing = [] ∧
      ∀ w ∈ (g.visit .number s v).level, g.kind? w = some .unknown ∨ g.kind? w = some .number := by
  unfold visit
  split
  · exact hs
  · rcases hv with hunknown | hnumber
    · rw [hunknown]
      refine ⟨hs.1, fun w hw => ?_⟩
      rcases List.mem_append.mp hw with hold | hsucc
      · exact hs.2 w hold
      · exact h.targets (v, w) (g.mem_successors.mp hsucc)
    · rw [hnumber]
      exact hs

theorem search_number (turns : Nat) {s : Search} (hs : s.clashing = [] ∧
    ∀ w ∈ s.level, g.kind? w = some .unknown ∨ g.kind? w = some .number) :
    (g.search .number turns s).clashing = [] := by
  induction turns generalizing s with
  | zero => exact hs.1
  | succ turns ih =>
    by_cases hlevel : s.level = []
    · rw [search_of_level_nil hlevel]
      exact hs.1
    · rw [search_succ _ hlevel]
      refine ih (List.foldlRecOn s.level (g.visit .number) (b := { s with level := [] })
        (motive := fun s => s.clashing = [] ∧
          ∀ w ∈ s.level, g.kind? w = some .unknown ∨ g.kind? w = some .number) ⟨hs.1, nofun⟩ ?_)
      exact fun s' hs' v hv => h.visit_number (hs.2 v hv) hs'

theorem clashes_eq_nil {v : VertexId} (hv : g.kind? v ≠ some .undefined) : g.clashes v = [] := by
  unfold clashes
  cases hkind : g.kind? v with
  | none => rfl
  | some kind =>
    cases kind with
    | unknown => rfl
    | undefined => exact absurd hkind hv
    | number =>
      exact h.search_number _ ⟨rfl, fun w hw => h.targets (v, w) (g.mem_successors.mp hw)⟩
    | function =>
      have hnone : g.successors v = [] := by
        refine List.eq_nil_iff_forall_not_mem.mpr fun w hw => ?_
        exact h.sources (v, w) (g.mem_successors.mp hw) hkind
      dsimp only
      rw [hnone, search_of_level_nil rfl]

end Calm

/-! ## Graphs that lack some vertices of others -/

/-- The vertex `v` of the smaller graph is the vertex `u` of the larger one, and of the same kind and
node. The list says which vertices of the larger graph the smaller one keeps, in their order. -/
def Same (keep : List VertexId) (a b : FlowGraph) (u v : VertexId) : Prop :=
  keep[v]? = some u ∧ ∃ r, a.vertices[u]? = some r ∧ b.vertices[v]? = some r

/-- The graph `b` keeps these vertices of the graph `a`. Of these some may have become numbers. The
others are unknown or numbers, and no value flows into them from a vertex that is the same in both
graphs and not a number. -/
structure Folds (keep : List VertexId) (a b : FlowGraph) : Prop where
  length : keep.length = b.size
  sorted : keep.Pairwise (· < ·)
  kept : ∀ u v, keep[v]? = some u →
    Same keep a b u v ∨ a.kind? u = some .unknown ∧ b.kind? v = some .number
  dropped : ∀ u, u < a.size → u ∉ keep → a.kind? u = some .unknown ∨ a.kind? u = some .number
  successors : ∀ u v, Same keep a b u v → a.kind? u ≠ some .number →
    List.Forall₂ (Same keep a b) (a.successors u) (b.successors v)

/-- The searches have come upon the same vertices. -/
structure Search.Alike (keep : List VertexId) (a b : FlowGraph) (s t : Search) : Prop where
  visited : List.Forall₂ (Same keep a b) s.visited t.visited
  clashing : List.Forall₂ (Same keep a b) s.clashing t.clashing
  level : List.Forall₂ (Same keep a b) s.level t.level

namespace Same

variable {keep : List VertexId} {a b : FlowGraph} {u v u' v' : VertexId}

theorem kind_eq (h : Same keep a b u v) : a.kind? u = b.kind? v := by
  obtain ⟨-, r, hu, hv⟩ := h
  rw [kind?, kind?, hu, hv]

theorem mismatch_eq (h : Same keep a b u v) (h' : Same keep a b u' v') :
    a.mismatch? u u' = b.mismatch? v v' := by
  obtain ⟨-, r, hu, hv⟩ := h
  obtain ⟨-, r', hu', hv'⟩ := h'
  simp only [mismatch?, hu, hv, hu', hv']

theorem filterMap_mismatch (h : Same keep a b u v) {us vs : List VertexId}
    (hs : List.Forall₂ (Same keep a b) us vs) :
    us.filterMap (a.mismatch? u) = vs.filterMap (b.mismatch? v) := by
  induction hs with
  | nil => rfl
  | cons h' _ ih => rw [List.filterMap_cons, List.filterMap_cons, h.mismatch_eq h', ih]

end Same

/-- What contributes nothing need not be gone through. -/
theorem flatMap_filter {α : Type} {f : VertexId → List α} {p : VertexId → Bool} :
    ∀ (us : List VertexId), (∀ u ∈ us, p u = false → f u = []) →
      us.flatMap f = (us.filter p).flatMap f
  | [], _ => rfl
  | u :: rest, h => by
    have hrest := flatMap_filter rest fun w hw => h w (List.mem_cons_of_mem _ hw)
    cases hp : p u with
    | true => rw [List.filter_cons_of_pos hp, List.flatMap_cons, List.flatMap_cons, hrest]
    | false =>
      have hnot : ¬p u = true := by
        rw [hp]
        exact Bool.false_ne_true
      rw [List.filter_cons_of_neg hnot, List.flatMap_cons, h u List.mem_cons_self hp, hrest]
      rfl

namespace Folds

variable {keep : List VertexId} {a b : FlowGraph} (h : Folds keep a b)
include h

theorem lt_size {u : VertexId} (hu : u ∈ keep) : u < a.size := by
  obtain ⟨v, hv⟩ := List.mem_iff_getElem?.mp hu
  rcases h.kept u v hv with ⟨-, r, hr, -⟩ | ⟨hkind, -⟩
  · exact (Array.getElem?_eq_some_iff.mp hr).1
  · exact a.kind?_lt_size hkind

theorem nodup : keep.Nodup :=
  h.sorted.imp Nat.ne_of_lt

theorem injective {u v w : VertexId} (hv : keep[v]? = some u) (hw : keep[w]? = some u) : v = w :=
  (List.getElem?_inj (List.getElem?_eq_some_iff.mp hv).1 h.nodup).mp (hv.trans hw.symm)

theorem size_le : b.size ≤ a.size := by
  rw [← h.length]
  exact length_le_size h.nodup fun u => h.lt_size

/-! ### Searches -/

theorem mem_iff {us vs : List VertexId} (hs : List.Forall₂ (Same keep a b) us vs) {u v : VertexId}
    (huv : Same keep a b u v) : u ∈ us ↔ v ∈ vs := by
  induction hs with
  | nil => exact ⟨nofun, nofun⟩
  | @cons u' v' us vs huv' _ ih =>
    have heads : u = u' ↔ v = v' := by
      constructor
      · rintro rfl
        exact h.injective huv.1 huv'.1
      · rintro rfl
        exact Option.some.inj (huv.1.symm.trans huv'.1)
    rw [List.mem_cons, List.mem_cons, heads, ih]

theorem visit {kind : Kind} {s t : Search} (hst : Search.Alike keep a b s t) {u v : VertexId}
    (huv : Same keep a b u v) : Search.Alike keep a b (a.visit kind s u) (b.visit kind t v) := by
  obtain ⟨hvisited, hclashing, hlevel⟩ := hst
  unfold FlowGraph.visit
  by_cases hmem : u ∈ s.visited
  · rw [if_pos hmem, if_pos ((h.mem_iff hvisited huv).mp hmem)]
    exact ⟨hvisited, hclashing, hlevel⟩
  · rw [if_neg hmem, if_neg fun hv => hmem ((h.mem_iff hvisited huv).mpr hv), ← huv.kind_eq]
    have hvisited' := List.Forall₂.cons huv hvisited
    cases hkind : a.kind? u with
    | none => exact ⟨hvisited', hclashing, hlevel⟩
    | some found =>
      have hfound : ∀ k : Kind, Search.Alike keep a b
          (if k = kind then { s with visited := u :: s.visited }
            else { s with visited := u :: s.visited, clashing := s.clashing ++ [u] })
          (if k = kind then { t with visited := v :: t.visited }
            else { t with visited := v :: t.visited, clashing := t.clashing ++ [v] }) := by
        intro k
        split
        · exact ⟨hvisited', hclashing, hlevel⟩
        · exact ⟨hvisited', List.rel_append hclashing (.cons huv .nil), hlevel⟩
      cases found with
      | unknown =>
        have hsucc := h.successors u v huv (by rw [hkind]; exact nofun)
        exact ⟨hvisited', hclashing, List.rel_append hlevel hsucc⟩
      | number => exact hfound .number
      | undefined => exact hfound .undefined
      | function => exact hfound .function

theorem visits {kind : Kind} {us vs : List VertexId} (hs : List.Forall₂ (Same keep a b) us vs)
    {s t : Search} (hst : Search.Alike keep a b s t) :
    Search.Alike keep a b (us.foldl (a.visit kind) s) (vs.foldl (b.visit kind) t) := by
  induction hs generalizing s t with
  | nil => exact hst
  | cons huv _ ih => exact ih (h.visit hst huv)

theorem search (kind : Kind) (turns : Nat) {s t : Search} (hst : Search.Alike keep a b s t) :
    Search.Alike keep a b (a.search kind turns s) (b.search kind turns t) := by
  induction turns generalizing s t with
  | zero => exact hst
  | succ turns ih =>
    have hnil : s.level = [] ↔ t.level = [] := by
      rw [← List.length_eq_zero_iff, hst.level.length_eq, List.length_eq_zero_iff]
    by_cases hlevel : s.level = []
    · rw [search_of_level_nil hlevel, search_of_level_nil (hnil.mp hlevel)]
      exact hst
    · rw [search_succ _ hlevel, search_succ _ fun ht => hlevel (hnil.mpr ht)]
      exact ih (h.visits hst.level ⟨hst.visited, hst.clashing, .nil⟩)

/-- Undefined vertices clash with the same vertices. The search of the larger graph may take more
turns than it needs. -/
theorem clashes (hb : b.Calm) {u v : VertexId} (huv : Same keep a b u v)
    (hkind : a.kind? u = some .undefined) :
    List.Forall₂ (Same keep a b) (a.clashes u) (b.clashes v) := by
  have hsucc := h.successors u v huv (by rw [hkind]; exact nofun)
  have hstart : Search.Alike keep a b { visited := [u], clashing := [], level := a.successors u }
      { visited := [v], clashing := [], level := b.successors v } :=
    ⟨.cons huv .nil, .nil, hsucc⟩
  have hv : v < b.size := b.kind?_lt_size (huv.kind_eq.symm.trans hkind)
  have hwithin : Search.Within b { visited := [v], clashing := [], level := b.successors v } := by
    refine ⟨List.nodup_singleton v, fun w hw => ?_, fun w hw => ?_⟩
    · rwa [List.mem_singleton.mp hw]
    · exact hb.target_lt (b.mem_successors.mp hw)
  have hend := level_search .undefined (fun edge => hb.target_lt) (b.size + 1) hwithin (by
    rw [List.length_singleton]
    omega)
  have hturns : a.size + 1 = b.size + 1 + (a.size - b.size) := by
    have := h.size_le
    omega
  have hsearch := h.search .undefined (a.size + 1) hstart
  have hextra : b.search .undefined (a.size + 1)
      { visited := [v], clashing := [], level := b.successors v } =
        b.search .undefined (b.size + 1)
          { visited := [v], clashing := [], level := b.successors v } := by
    rw [hturns, search_add, search_of_level_nil hend]
  rw [hextra] at hsearch
  unfold FlowGraph.clashes
  rw [← huv.kind_eq, hkind]
  exact hsearch.clashing

/-! ### Mismatches -/

/-- A vertex that is kept has the same mismatches. -/
theorem mismatches_kept (ha : a.Calm) (hb : b.Calm) {u v : VertexId} (hv : keep[v]? = some u) :
    (a.clashes u).filterMap (a.mismatch? u) = (b.clashes v).filterMap (b.mismatch? v) := by
  have hnone : a.kind? u ≠ some .undefined → b.kind? v ≠ some .undefined →
      (a.clashes u).filterMap (a.mismatch? u) = (b.clashes v).filterMap (b.mismatch? v) := by
    intro hu hv
    rw [ha.clashes_eq_nil hu, hb.clashes_eq_nil hv]
    rfl
  rcases h.kept u v hv with huv | ⟨hunknown, hnumber⟩
  · by_cases hkind : a.kind? u = some .undefined
    · exact huv.filterMap_mismatch (h.clashes hb huv hkind)
    · exact hnone hkind (huv.kind_eq ▸ hkind)
  · exact hnone (by rw [hunknown]; exact nofun) (by rw [hnumber]; exact nofun)

/-- The vertices of the larger graph that the smaller one keeps are those that are in the list. -/
theorem filter_range : (List.range a.size).filter (· ∈ keep) = keep := by
  refine List.Pairwise.eq_of_mem_iff (r := (· < ·)) (List.pairwise_lt_range.filter _) h.sorted ?_
  intro u
  rw [List.mem_filter, List.mem_range, decide_eq_true_eq]
  exact ⟨And.right, fun hu => ⟨h.lt_size hu, hu⟩⟩

/-- The graphs have the same mismatches. -/
theorem mismatches_eq (ha : a.Calm) (hb : b.Calm) : a.mismatches = b.mismatches := by
  have hdropped : ∀ u, u < a.size → u ∉ keep → (a.clashes u).filterMap (a.mismatch? u) = [] := by
    intro u hu hnot
    have hkind : a.kind? u ≠ some .undefined := by
      rcases h.dropped u hu hnot with hunknown | hnumber
      · rw [hunknown]
        exact nofun
      · rw [hnumber]
        exact nofun
    rw [ha.clashes_eq_nil hkind]
    rfl
  have hkeep := flatMap_filter (p := (· ∈ keep)) (List.range a.size) fun u hu hnot =>
    hdropped u (List.mem_range.mp hu) (of_decide_eq_false hnot)
  rw [h.filter_range] at hkeep
  unfold mismatches
  rw [hkeep, ← h.length, List.flatMap_def, List.flatMap_def]
  congr 1
  refine List.ext_getElem (by simp) fun v hv _ => ?_
  have hlt : v < keep.length := by rwa [List.length_map] at hv
  rw [List.getElem_map, List.getElem_map, List.getElem_range]
  exact h.mismatches_kept ha hb (List.getElem?_eq_getElem hlt)

end Folds

end Abacus.FlowGraph
