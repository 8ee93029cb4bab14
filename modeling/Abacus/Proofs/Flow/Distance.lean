import Abacus.Proofs.Flow.Reach

/-!
# Mismatches in the order of their distance

A clash is a walk from a concrete vertex over vertices of unknown kind to a concrete vertex of another
kind. In a graph that was built vertex by vertex and edge by edge, the mismatches are the clashes, each
of them once: by the number of the vertex that they start from, and then by the length of the shortest
walk (`mismatches_by_distance`).

The search goes level by level, and level `n` holds ends of walks of `n` edges. A vertex is therefore
visited for the first time on the level of its distance (`Search.Layered`), and what clashes there lies
no nearer than what clashed before. A queue that is worked off from its front and filled up at its end
meets the vertices in the same order, and it runs empty (`Search.Drains`).
-/
namespace Abacus.FlowGraph

variable {g : FlowGraph} {kind : Kind} {source v w : VertexId}

/-! ## Built graphs -/

/-- Vertices and edges were added one after the other, and an edge only between vertices that were
there. -/
inductive Built : FlowGraph → Prop where
  | empty : Built .empty
  | add {g : FlowGraph} (kind : Kind) (node : Option NodeId) : Built g → Built (g.add kind node)
  | flow {g : FlowGraph} {lower upper : VertexId} : Built g → lower < g.size → upper < g.size →
      Built (g.flow lower upper)

/-- Every edge of a built graph leads to one of its vertices. -/
theorem Built.target_lt (h : g.Built) : ∀ edge ∈ g.edges, edge.2 < g.size := by
  induction h with
  | empty => exact nofun
  | @add g kind node _ ih =>
    intro edge hedge
    have hsize : (g.add kind node).size = g.size + 1 := Array.size_push _
    rw [hsize]
    exact Nat.lt_succ_of_lt (ih edge hedge)
  | flow _ _ hupper ih =>
    intro edge hedge
    rcases Array.mem_push.mp hedge with hold | rfl
    · exact ih edge hold
    · exact hupper

/-! ## Walks -/

/-- A walk of this many edges, with vertices of unknown kind between its ends. -/
inductive Walk (g : FlowGraph) (source : VertexId) : Nat → VertexId → Prop where
  | edge {v : VertexId} : (source, v) ∈ g.edges → g.Walk source 1 v
  | through {n : Nat} {v w : VertexId} : g.Walk source n v → g.kind? v = some .unknown →
      (v, w) ∈ g.edges → g.Walk source (n + 1) w

theorem Walk.reaches {n : Nat} (h : g.Walk source n v) : g.Reaches source v := by
  induction h with
  | edge hedge => exact .edge hedge
  | through _ hkind hedge ih => exact .through ih hkind hedge

theorem Reaches.exists_walk (h : g.Reaches source v) : ∃ n, g.Walk source n v := by
  induction h with
  | edge hedge => exact ⟨1, .edge hedge⟩
  | through _ hkind hedge ih =>
    obtain ⟨n, hn⟩ := ih
    exact ⟨n + 1, hn.through hkind hedge⟩

theorem Walk.pos {n : Nat} (h : g.Walk source n v) : 0 < n := by
  cases h with
  | edge _ => exact Nat.one_pos
  | through _ _ _ => exact Nat.succ_pos _

/-- The length of the shortest walk. -/
def Distance (g : FlowGraph) (source v : VertexId) (n : Nat) : Prop :=
  g.Walk source n v ∧ ∀ m, g.Walk source m v → n ≤ m

/-- No walk to the second vertex is shorter than every walk to the first. -/
def NoFarther (g : FlowGraph) (source v w : VertexId) : Prop :=
  ∀ n, g.Walk source n w → ∃ m ≤ n, g.Walk source m v

theorem NoFarther.distance_le (h : g.NoFarther source v w) {m n : Nat}
    (hm : g.Distance source v m) (hn : g.Distance source w n) : m ≤ n := by
  obtain ⟨l, hl, hwalk⟩ := h n hn.1
  exact Nat.le_trans (hm.2 l hwalk) hl

/-! ## Levels of a search -/

/-- The search from a vertex before its first visit. -/
def Search.start (g : FlowGraph) (source : VertexId) : Search :=
  { visited := [source], clashing := [], level := g.successors source }

/-- What the first visit to a vertex adds to those that clash. -/
theorem clashing_visit (kind : Kind) {s : Search} (hv : v ∉ s.visited) :
    (g.visit kind s v).clashing = s.clashing ∨ (g.visit kind s v).clashing = s.clashing ++ [v] := by
  unfold visit
  rw [if_neg hv]
  cases g.kind? v with
  | none => exact .inl rfl
  | some found =>
    cases found with
    | unknown => exact .inl rfl
    | _ =>
      dsimp only
      split
      · exact .inl rfl
      · exact .inr rfl

/-- A search on its level number `turn`: nearer vertices have been visited, those of this level have
been or will be, and the next level is one edge further away. -/
structure Search.Layered (g : FlowGraph) (kind : Kind) (source : VertexId) (turn : Nat)
    (pending : List VertexId) (s : Search) : Prop extends Search.Tracks g kind source pending s where
  nearer : ∀ n v, n < turn → g.Walk source n v → v ∈ s.visited
  here : ∀ v, g.Walk source turn v → v ∈ s.visited ∨ v ∈ pending
  pending : ∀ v ∈ pending, g.Walk source turn v
  next : ∀ v ∈ s.level, g.Walk source (turn + 1) v
  found : ∀ v ∈ s.clashing, ∃ n ≤ turn, g.Walk source n v
  nodup : s.clashing.Nodup
  sorted : s.clashing.Pairwise (g.NoFarther source)

namespace Search.Layered

variable {turn : Nat} {pending : List VertexId} {s : Search}

/-- The first visit to a vertex that clashes comes after those to all that clash and lie nearer. -/
theorem sorted_append (h : s.Layered g kind source turn (v :: pending)) (hv : v ∉ s.visited) :
    (s.clashing ++ [v]).Nodup ∧ (s.clashing ++ [v]).Pairwise (g.NoFarther source) := by
  constructor
  · refine List.nodup_append.mpr ⟨h.nodup, List.nodup_singleton v, fun u hu w hw => ?_⟩
    obtain rfl := List.mem_singleton.mp hw
    rintro rfl
    exact hv ((h.clashing u).mp hu).1
  · refine List.pairwise_append.mpr ⟨h.sorted, List.pairwise_singleton _ v, fun u hu w hw n hn => ?_⟩
    obtain rfl := List.mem_singleton.mp hw
    have hfar : turn ≤ n := Nat.le_of_not_lt fun hlt => hv (h.nearer n w hlt hn)
    obtain ⟨m, hm, hwalk⟩ := h.found u hu
    exact ⟨m, Nat.le_trans hm hfar, hwalk⟩

theorem visit (h : s.Layered g kind source turn (v :: pending)) :
    (g.visit kind s v).Layered g kind source turn pending := by
  have hwalk : g.Walk source turn v := h.pending v List.mem_cons_self
  have hrest : ∀ w ∈ pending, g.Walk source turn w := fun w hw =>
    h.pending w (List.mem_cons_of_mem v hw)
  by_cases hv : v ∈ s.visited
  · have hsame : g.visit kind s v = s := if_pos hv
    have htracks := h.toTracks.visit
    rw [hsame] at htracks ⊢
    refine ⟨htracks, h.nearer, fun w hw => ?_, hrest, h.next, h.found, h.nodup, h.sorted⟩
    rcases h.here w hw with hold | hpending
    · exact .inl hold
    · rcases List.mem_cons.mp hpending with rfl | hlater
      · exact .inl hv
      · exact .inr hlater
  · obtain ⟨hvisited, hlevel⟩ := g.visit_first kind hv
    obtain ⟨hnodup, hsorted⟩ := h.sorted_append hv
    refine ⟨h.toTracks.visit, fun n w hn hw => ?_, fun w hw => ?_, hrest, fun w hw => ?_,
      fun w hw => ?_, ?_, ?_⟩
    · rw [hvisited]
      exact List.mem_cons_of_mem v (h.nearer n w hn hw)
    · rw [hvisited]
      rcases h.here w hw with hold | hpending
      · exact .inl (List.mem_cons_of_mem v hold)
      · rcases List.mem_cons.mp hpending with rfl | hlater
        · exact .inl List.mem_cons_self
        · exact .inr hlater
    · rw [hlevel] at hw
      rcases List.mem_append.mp hw with hold | hsucc
      · exact h.next w hold
      · split at hsucc
        next hkind => exact hwalk.through hkind (g.mem_successors.mp hsucc)
        next => exact absurd hsucc List.not_mem_nil
    · rcases (mem_clashing_visit hv).mp hw with hold | ⟨rfl, -⟩
      · exact h.found w hold
      · exact ⟨turn, Nat.le_refl turn, hwalk⟩
    · rcases clashing_visit (g := g) kind hv with hsame | hmore
      · rw [hsame]
        exact h.nodup
      · rw [hmore]
        exact hnodup
    · rcases clashing_visit (g := g) kind hv with hsame | hmore
      · rw [hsame]
        exact h.sorted
      · rw [hmore]
        exact hsorted

theorem visits (h : s.Layered g kind source turn pending) :
    (pending.foldl (g.visit kind) s).Layered g kind source turn [] := by
  induction pending generalizing s with
  | nil => exact h
  | cons v rest ih => exact ih h.visit

/-- When all of a level has been visited, what it has added is the next level. -/
theorem turn_over (h : s.Layered g kind source turn []) :
    Search.Layered g kind source (turn + 1) s.level { s with level := [] } := by
  have hdone : ∀ v, g.Walk source turn v → v ∈ s.visited := fun v hv =>
    (h.here v hv).resolve_right List.not_mem_nil
  refine ⟨⟨h.visited, fun v hv => ?_, h.clashing, fun v w hv hedge => ?_⟩, fun n v hn hv => ?_,
    fun w hw => ?_, h.next, fun v hv => absurd hv List.not_mem_nil, fun v hv => ?_, h.nodup, h.sorted⟩
  · exact h.waiting v (.inr (hv.resolve_right List.not_mem_nil))
  · rcases h.closed v w hv hedge with hold | hnone | hnext
    · exact .inl hold
    · exact absurd hnone List.not_mem_nil
    · exact .inr (.inl hnext)
  · rcases Nat.lt_or_eq_of_le (Nat.le_of_lt_succ hn) with hlt | rfl
    · exact h.nearer n v hlt hv
    · exact hdone v hv
  · cases hw with
    | edge hedge =>
      rcases h.closed source w (.inl rfl) hedge with hold | hnone | hnext
      · exact .inl hold
      · exact absurd hnone List.not_mem_nil
      · exact .inr hnext
    | through hv hunknown hedge =>
      rcases h.closed _ w (.inr ⟨hdone _ hv, hunknown⟩) hedge with hold | hnone | hnext
      · exact .inl hold
      · exact absurd hnone List.not_mem_nil
      · exact .inr hnext
  · obtain ⟨n, hn, hwalk⟩ := h.found v hv
    exact ⟨n, Nat.le_succ_of_le hn, hwalk⟩

theorem search (turns : Nat) {s : Search} (h : s.Layered g kind source turn []) :
    ∃ last, (g.search kind turns s).Layered g kind source last [] := by
  induction turns generalizing s turn with
  | zero => exact ⟨turn, h⟩
  | succ turns ih =>
    by_cases hlevel : s.level = []
    · rw [search_of_level_nil hlevel]
      exact ⟨turn, h⟩
    · rw [search_succ _ hlevel]
      exact ih h.turn_over.visits

theorem start (hkind : g.kind? source = some kind) :
    Search.Layered g kind source 0 [] (.start g source) := by
  refine ⟨.start hkind, fun n v hn _ => absurd hn (Nat.not_lt_zero n), fun v hv => ?_,
    fun v hv => absurd hv List.not_mem_nil, fun v hv => ?_, fun v hv => absurd hv List.not_mem_nil,
    .nil, .nil⟩
  · exact absurd hv.pos (Nat.lt_irrefl 0)
  · exact .edge (g.mem_successors.mp hv)

end Search.Layered

/-! ## A queue instead of levels -/

/-- A search that works off a queue comes to its end: as long as the queue holds a vertex, the first
one is taken from it and visited, and what the visit adds goes to its end. -/
inductive Search.Drains (g : FlowGraph) (kind : Kind) : Search → Search → Prop where
  | done {s : Search} : s.level = [] → Search.Drains g kind s s
  | next {s last : Search} {v : VertexId} {queue : List VertexId} : s.level = v :: queue →
      Search.Drains g kind (g.visit kind { s with level := queue } v) last →
      Search.Drains g kind s last

/-- A visit adds to the end of a queue, whatever stands in it. -/
theorem visit_queue (kind : Kind) (s : Search) (queue : List VertexId) (v : VertexId) :
    g.visit kind { s with level := queue ++ s.level } v =
      { g.visit kind s v with level := queue ++ (g.visit kind s v).level } := by
  unfold visit
  dsimp only
  split
  · rfl
  · cases g.kind? v with
    | none => rfl
    | some found =>
      cases found with
      | unknown => simp only [List.append_assoc]
      | _ =>
        dsimp only
        split <;> rfl

namespace Search.Drains

variable {s last : Search} {level : List VertexId}

/-- Working off a level that stands in front of a queue. -/
theorem of_foldl
    (h : Search.Drains g kind (level.foldl (g.visit kind) s) last) :
    Search.Drains g kind { s with level := level ++ s.level } last := by
  induction level generalizing s with
  | nil => exact h
  | cons v rest ih =>
    refine .next rfl ?_
    change Search.Drains g kind (g.visit kind { s with level := rest ++ s.level } v) last
    rw [visit_queue]
    exact ih h

theorem of_search (turns : Nat) (h : (g.search kind turns s).level = []) :
    Search.Drains g kind s (g.search kind turns s) := by
  induction turns generalizing s with
  | zero => exact .done h
  | succ turns ih =>
    by_cases hlevel : s.level = []
    · rw [search_of_level_nil hlevel]
      exact .done hlevel
    · rw [search_succ _ hlevel] at h ⊢
      have hqueue := of_foldl (ih h)
      rwa [List.append_nil] at hqueue

end Search.Drains

/-! ## Clashes -/

theorem clashes_eq (hkind : g.kind? source = some kind) (hconcrete : kind ≠ .unknown) :
    g.clashes source = (g.search kind (g.size + 1) (.start g source)).clashing := by
  unfold clashes
  rw [hkind]
  cases kind with
  | unknown => exact absurd rfl hconcrete
  | _ => rfl

theorem clashes_of_unknown (hkind : g.kind? source = some .unknown) : g.clashes source = [] := by
  unfold clashes
  rw [hkind]

/-- The queue of the search from a concrete vertex runs empty, and then its clashes have been found. -/
theorem exists_drains (hg : ∀ edge ∈ g.edges, edge.2 < g.size) (hkind : g.kind? source = some kind)
    (hconcrete : kind ≠ .unknown) :
    ∃ last, Search.Drains g kind (.start g source) last ∧ last.clashing = g.clashes source := by
  have hwithin : Search.Within g (.start g source) := by
    refine ⟨List.nodup_singleton source, fun v hv => ?_, fun v hv => ?_⟩
    · rw [List.mem_singleton.mp hv]
      exact g.kind?_lt_size hkind
    · exact hg (source, v) (g.mem_successors.mp hv)
  have hend := level_search kind hg (g.size + 1) hwithin (by
    change g.size < 1 + (g.size + 1)
    omega)
  exact ⟨_, .of_search (g.size + 1) hend, (clashes_eq hkind hconcrete).symm⟩

/-- A value gets from a concrete vertex, over vertices of unknown kind, to a concrete vertex of another
kind. -/
structure Clash (g : FlowGraph) (source target : VertexId) : Prop where
  kinds : ∃ lower, g.kind? source = some lower ∧ lower ≠ .unknown ∧ g.Opposes lower target
  walk : ∃ n, g.Walk source n target

theorem mem_clashes (hg : ∀ edge ∈ g.edges, edge.2 < g.size) (hsource : source < g.size) :
    v ∈ g.clashes source ↔ g.Clash source v := by
  obtain ⟨lower, hlower⟩ : ∃ lower, g.kind? source = some lower :=
    ⟨_, congrArg (Option.map Vertex.kind) (Array.getElem?_eq_getElem hsource)⟩
  by_cases hconcrete : lower = .unknown
  · subst hconcrete
    rw [clashes_of_unknown hlower]
    refine ⟨fun hv => absurd hv List.not_mem_nil, fun ⟨⟨kind, hkind, hne, _⟩, _⟩ => ?_⟩
    exact absurd (Option.some.inj (hkind.symm.trans hlower)) hne
  · rw [mem_clashes_iff hg hlower hconcrete]
    constructor
    · rintro ⟨hreaches, hopposes⟩
      exact ⟨⟨lower, hlower, hconcrete, hopposes⟩, hreaches.exists_walk⟩
    · rintro ⟨⟨kind, hkind, -, hopposes⟩, n, hwalk⟩
      obtain rfl := Option.some.inj (hkind.symm.trans hlower)
      exact ⟨hwalk.reaches, hopposes⟩

/-- The clashes of a vertex come one by one, none nearer than one before it. -/
theorem clashes_sorted (source : VertexId) :
    (g.clashes source).Nodup ∧ (g.clashes source).Pairwise (g.NoFarther source) := by
  cases hkind : g.kind? source with
  | none =>
    unfold clashes
    rw [hkind]
    exact ⟨.nil, .nil⟩
  | some kind =>
    by_cases hconcrete : kind = .unknown
    · subst hconcrete
      rw [clashes_of_unknown hkind]
      exact ⟨.nil, .nil⟩
    · obtain ⟨_, hlayered⟩ := (Search.Layered.start hkind).search (g.size + 1)
      rw [clashes_eq hkind hconcrete]
      exact ⟨hlayered.nodup, hlayered.sorted⟩

/-! ## Mismatches -/

/-- The mismatch that says what a pair of vertices holds. -/
def Reports (g : FlowGraph) (m : Mismatch) (pair : VertexId × VertexId) : Prop :=
  ∃ lower upper : Vertex, g.vertices[pair.1]? = some lower ∧ g.vertices[pair.2]? = some upper ∧
    m = { expected := lower.kind, found := upper.kind, node := upper.node }

/-- By source, in order of creation, and then by the distance of the target. -/
def Before (g : FlowGraph) (p q : VertexId × VertexId) : Prop :=
  p.1 < q.1 ∨ p.1 = q.1 ∧
    ∀ m n, g.Distance p.1 p.2 m → g.Distance q.1 q.2 n → m ≤ n

/-- All clashes of a graph, as pairs of source and target. -/
def clashPairs (g : FlowGraph) : List (VertexId × VertexId) :=
  (List.range g.size).flatMap fun source => (g.clashes source).map (source, ·)

theorem mem_clashPairs (hg : ∀ edge ∈ g.edges, edge.2 < g.size) {source target : VertexId} :
    (source, target) ∈ g.clashPairs ↔ g.Clash source target := by
  unfold clashPairs
  simp only [List.mem_flatMap, List.mem_map, List.mem_range, Prod.mk.injEq]
  constructor
  · rintro ⟨_, hsource, v, hv, rfl, rfl⟩
    exact (mem_clashes hg hsource).mp hv
  · intro h
    obtain ⟨lower, hlower, -⟩ := h.kinds
    have hsource := g.kind?_lt_size hlower
    exact ⟨source, hsource, target, (mem_clashes hg hsource).mpr h, rfl, rfl⟩

theorem nodup_clashPairs (g : FlowGraph) : g.clashPairs.Nodup := by
  unfold clashPairs
  refine List.nodup_flatMap.mpr ⟨fun source _ => ?_, List.nodup_range.imp fun hne => ?_⟩
  · exact (clashes_sorted source).1.map fun _ _ h => congrArg Prod.snd h
  · intro pair hpair hpair'
    obtain ⟨_, -, rfl⟩ := List.mem_map.mp hpair
    obtain ⟨_, -, heq⟩ := List.mem_map.mp hpair'
    exact hne (congrArg Prod.fst heq).symm

theorem sorted_clashPairs (g : FlowGraph) : g.clashPairs.Pairwise g.Before := by
  unfold clashPairs
  refine List.pairwise_flatMap.mpr ⟨fun source _ => ?_, List.pairwise_lt_range.imp fun hlt => ?_⟩
  · refine List.pairwise_map.mpr ((clashes_sorted source).2.imp fun hle => ?_)
    exact .inr ⟨rfl, fun _ _ => hle.distance_le⟩
  · intro pair hpair pair' hpair'
    obtain ⟨_, -, rfl⟩ := List.mem_map.mp hpair
    obtain ⟨_, -, rfl⟩ := List.mem_map.mp hpair'
    exact .inl hlt

theorem mismatches_eq_filterMap (g : FlowGraph) :
    g.mismatches = g.clashPairs.filterMap fun pair => g.mismatch? pair.1 pair.2 := by
  unfold mismatches clashPairs
  simp only [List.filterMap_flatMap, List.filterMap_map]
  rfl

theorem Clash.reports {target : VertexId} (h : g.Clash source target) :
    ∃ m, g.mismatch? source target = some m ∧ g.Reports m (source, target) := by
  obtain ⟨⟨lower, hlower, -, found, hfound, -⟩, -⟩ := h
  obtain ⟨r, hr, -⟩ := Option.map_eq_some_iff.mp hlower
  obtain ⟨r', hr', -⟩ := Option.map_eq_some_iff.mp hfound
  refine ⟨{ expected := r.kind, found := r'.kind, node := r'.node }, ?_, r, r', hr, hr', rfl⟩
  simp only [mismatch?, hr, hr', bind, Option.bind, pure]

/-- A partial function that is defined on all of a list leaves nothing of it out. -/
theorem forall₂_filterMap {α β : Type} {f : α → Option β} {R : β → α → Prop} {as : List α}
    (h : ∀ a ∈ as, ∃ b, f a = some b ∧ R b a) : List.Forall₂ R (as.filterMap f) as := by
  induction as with
  | nil => exact .nil
  | cons a rest ih =>
    obtain ⟨b, hb, hrelated⟩ := h a List.mem_cons_self
    rw [List.filterMap_cons_some hb]
    exact .cons hrelated (ih fun other hother => h other (List.mem_cons_of_mem a hother))

/-- **The mismatches of a built graph are its clashes**, each reported once with the kinds of both
vertices and the node of the one that is reached. They come by their source in order of creation, and
those of one source by the length of the shortest walk. The search from each concrete vertex, with a
queue of vertices to visit, ends. -/
theorem mismatches_by_distance (h : g.Built) :
    (∀ source kind, g.kind? source = some kind → kind ≠ .unknown →
      ∃ last, Search.Drains g kind (.start g source) last ∧ last.clashing = g.clashes source) ∧
    ∃ pairs : List (VertexId × VertexId),
      List.Forall₂ g.Reports g.mismatches pairs ∧ pairs.Nodup ∧
      (∀ source target, (source, target) ∈ pairs ↔ g.Clash source target) ∧
      pairs.Pairwise g.Before := by
  refine ⟨fun _ _ => exists_drains h.target_lt, g.clashPairs, ?_, g.nodup_clashPairs,
    fun _ _ => mem_clashPairs h.target_lt, g.sorted_clashPairs⟩
  rw [mismatches_eq_filterMap]
  exact forall₂_filterMap fun _ hpair => ((mem_clashPairs h.target_lt).mp hpair).reports

/-- Something undefined, a cycle of two vertices of unknown kind with a loop at one of them, and three
concrete vertices behind it, the first of which shields the last. -/
def cycle : FlowGraph :=
  [(0, 1), (1, 2), (2, 1), (1, 1), (2, 3), (1, 4), (0, 1), (3, 5)].foldl
    (fun g edge => g.flow edge.1 edge.2)
    (((((((empty.add .undefined none).add .unknown none).add .unknown (some 1)).add .number
      (some 2)).add .function (some 3)).add .undefined (some 4)))

theorem mismatches_by_distance_cycle :
    cycle.Built ∧
      cycle.mismatches =
        [ { expected := .undefined, found := .function, node := some 3 },
          { expected := .undefined, found := .number, node := some 2 },
          { expected := .number, found := .undefined, node := some 4 } ] ∧
      (∃ last, Search.Drains cycle .undefined (.start cycle 0) last ∧ last.clashing = [4, 3]) ∧
      ∃ pairs : List (VertexId × VertexId),
        List.Forall₂ cycle.Reports cycle.mismatches pairs ∧ pairs.Nodup ∧
        (∀ source target, (source, target) ∈ pairs ↔ cycle.Clash source target) ∧
        pairs.Pairwise cycle.Before := by
  have hvertices := ((((((Built.empty.add .undefined none).add .unknown none).add .unknown
    (some 1)).add .number (some 2)).add .function (some 3)).add .undefined (some 4))
  have hbuilt : cycle.Built :=
    ((((((((hvertices.flow (by decide) (by decide)).flow (by decide) (by decide)).flow
      (by decide) (by decide)).flow (by decide) (by decide)).flow (by decide) (by decide)).flow
        (by decide) (by decide)).flow (by decide) (by decide)).flow (by decide) (by decide))
  obtain ⟨hdrains, hpairs⟩ := mismatches_by_distance hbuilt
  refine ⟨hbuilt, by decide, ?_, hpairs⟩
  have hclashes : cycle.clashes 0 = [4, 3] := by decide
  rw [← hclashes]
  exact hdrains 0 .undefined rfl (by decide)

end Abacus.FlowGraph
