import Abacus.Proofs.Flow.Search

/-!
# What a search finds

A value at one vertex reaches another if it flows there through vertices of unknown kind only. The
search from a concrete vertex comes upon the vertices that it reaches, and upon no others
(`mem_clashes_iff`): on the way, all successors of what was visited are visited or still to be
visited (`Search.Tracks`), and at its end nothing is left to visit. So the mismatches of a graph are
those of two concrete vertices of different kinds of which one reaches the other (`mem_mismatches_iff`).
-/
namespace Abacus.FlowGraph

variable {g : FlowGraph} {kind : Kind} {source v w : VertexId}

/-- The value at a vertex gets to another one, through vertices of unknown kind. -/
inductive Reaches (g : FlowGraph) (source : VertexId) : VertexId → Prop where
  | edge {v : VertexId} : (source, v) ∈ g.edges → g.Reaches source v
  | through {v w : VertexId} : g.Reaches source v → g.kind? v = some .unknown → (v, w) ∈ g.edges →
      g.Reaches source w

/-- A concrete vertex of another kind. -/
def Opposes (g : FlowGraph) (kind : Kind) (v : VertexId) : Prop :=
  ∃ found, g.kind? v = some found ∧ found ≠ .unknown ∧ found ≠ kind

/-- Where a value gets to is where some edge leads. -/
theorem Reaches.target (h : g.Reaches source v) : ∃ edge ∈ g.edges, edge.2 = v := by
  cases h with
  | edge hedge => exact ⟨_, hedge, rfl⟩
  | through _ _ hedge => exact ⟨_, hedge, rfl⟩

/-- A value gets to the end of its first edge, and further only if that is of unknown kind. -/
theorem Reaches.first (h : g.Reaches source v) : ∃ w, (source, w) ∈ g.edges ∧
    (w = v ∨ g.kind? w = some .unknown ∧ ∃ x, (w, x) ∈ g.edges) := by
  induction h with
  | edge hedge => exact ⟨_, hedge, .inl rfl⟩
  | through _ hkind hedge ih =>
    obtain ⟨u, hu, rfl | hon⟩ := ih
    · exact ⟨u, hu, .inr ⟨hkind, _, hedge⟩⟩
    · exact ⟨u, hu, .inr hon⟩

/-! ## One visit -/

/-- The vertices that clash behind the first visit to a vertex. -/
theorem mem_clashing_visit {s : Search} (hv : v ∉ s.visited) :
    w ∈ (g.visit kind s v).clashing ↔ w ∈ s.clashing ∨ w = v ∧ g.Opposes kind v := by
  unfold visit Opposes
  rw [if_neg hv]
  cases hkind : g.kind? v with
  | none => simp
  | some found =>
    by_cases hfound : found = kind
    · cases found <;> simp [hfound]
    · cases found <;> simp [hfound]

/-- A search from a vertex of this kind, with these vertices still to be visited on the level at
hand. -/
structure Search.Tracks (g : FlowGraph) (kind : Kind) (source : VertexId) (pending : List VertexId)
    (s : Search) : Prop where
  visited : ∀ v ∈ s.visited, v = source ∨ g.Reaches source v
  waiting : ∀ v, v ∈ pending ∨ v ∈ s.level → g.Reaches source v
  clashing : ∀ v, v ∈ s.clashing ↔ v ∈ s.visited ∧ g.Opposes kind v
  closed : ∀ v w, v = source ∨ v ∈ s.visited ∧ g.kind? v = some .unknown → (v, w) ∈ g.edges →
    w ∈ s.visited ∨ w ∈ pending ∨ w ∈ s.level

namespace Search.Tracks

variable {pending : List VertexId} {s : Search}

theorem visit (h : s.Tracks g kind source (v :: pending)) :
    (g.visit kind s v).Tracks g kind source pending := by
  obtain ⟨hvisited, hwaiting, hclashing, hclosed⟩ := h
  by_cases hv : v ∈ s.visited
  · have hsame : g.visit kind s v = s := if_pos hv
    rw [hsame]
    refine ⟨hvisited, fun w hw => hwaiting w (hw.imp_left (List.mem_cons_of_mem v)), hclashing,
      fun u w hu hedge => ?_⟩
    rcases hclosed u w hu hedge with hold | hpending | hlevel
    · exact .inl hold
    · rcases List.mem_cons.mp hpending with rfl | hrest
      · exact .inl hv
      · exact .inr (.inl hrest)
    · exact .inr (.inr hlevel)
  · obtain ⟨hnew, hlevel⟩ := g.visit_first kind hv
    have hreached : g.Reaches source v := hwaiting v (.inl List.mem_cons_self)
    refine ⟨fun w hw => ?_, fun w hw => ?_, fun w => ?_, fun u w hu hedge => ?_⟩
    · rw [hnew] at hw
      rcases List.mem_cons.mp hw with rfl | hold
      · exact .inr hreached
      · exact hvisited w hold
    · rw [hlevel] at hw
      rcases hw with hrest | hw
      · exact hwaiting w (.inl (List.mem_cons_of_mem v hrest))
      · rcases List.mem_append.mp hw with hold | hsucc
        · exact hwaiting w (.inr hold)
        · split at hsucc
          next hkind => exact .through hreached hkind (g.mem_successors.mp hsucc)
          next => exact absurd hsucc List.not_mem_nil
    · rw [mem_clashing_visit hv, hclashing, hnew, List.mem_cons, or_and_right, or_comm]
      refine or_congr_left ⟨fun ⟨heq, hopposes⟩ => ⟨heq, heq ▸ hopposes⟩,
        fun ⟨heq, hopposes⟩ => ⟨heq, heq ▸ hopposes⟩⟩
    · rw [hnew, hlevel]
      rw [hnew] at hu
      have hold : u = source ∨ u ∈ s.visited ∧ g.kind? u = some .unknown →
          w ∈ v :: s.visited ∨ w ∈ pending ∨ w ∈ s.level ++
            if g.kind? v = some .unknown then g.successors v else [] := by
        intro hu
        rcases hclosed u w hu hedge with hold | hpending | hlevel
        · exact .inl (List.mem_cons_of_mem v hold)
        · rcases List.mem_cons.mp hpending with rfl | hrest
          · exact .inl List.mem_cons_self
          · exact .inr (.inl hrest)
        · exact .inr (.inr (List.mem_append_left _ hlevel))
      rcases hu with hsource | ⟨hmem, hkind⟩
      · exact hold (.inl hsource)
      · rcases List.mem_cons.mp hmem with rfl | hmem
        · rw [if_pos hkind]
          exact .inr (.inr (List.mem_append_right _ (g.mem_successors.mpr hedge)))
        · exact hold (.inr ⟨hmem, hkind⟩)

/-! ## The whole search -/

/-- When a level has been visited, what it has added is the next one. -/
theorem visits (h : s.Tracks g kind source pending) :
    (pending.foldl (g.visit kind) s).Tracks g kind source [] := by
  induction pending generalizing s with
  | nil => exact h
  | cons v rest ih => exact ih h.visit

theorem search (turns : Nat) {s : Search} (h : s.Tracks g kind source []) :
    (g.search kind turns s).Tracks g kind source [] := by
  induction turns generalizing s with
  | zero => exact h
  | succ turns ih =>
    by_cases hlevel : s.level = []
    · rw [search_of_level_nil hlevel]
      exact h
    · rw [search_succ _ hlevel]
      refine ih (visits ⟨h.visited, fun v hv => ?_, h.clashing, fun v w hv hedge => ?_⟩)
      · exact h.waiting v (.inr (hv.resolve_right List.not_mem_nil))
      · rcases h.closed v w hv hedge with hold | hnone | hnext
        · exact .inl hold
        · exact absurd hnone List.not_mem_nil
        · exact .inr (.inl hnext)

theorem start (hkind : g.kind? source = some kind) :
    Search.Tracks g kind source []
      { visited := [source], clashing := [], level := g.successors source } := by
  refine ⟨fun v hv => .inl (List.mem_singleton.mp hv), fun v hv => ?_, fun v => ?_,
    fun v w hv hedge => ?_⟩
  · have hsucc := hv.resolve_left List.not_mem_nil
    exact .edge (g.mem_successors.mp hsucc)
  · refine ⟨nofun, fun ⟨hmem, found, hfound, _, hne⟩ => ?_⟩
    rw [List.mem_singleton.mp hmem, hkind] at hfound
    exact absurd (Option.some.inj hfound).symm hne
  · have hsource : v = source := hv.elim id fun hv => List.mem_singleton.mp hv.1
    rw [hsource] at hedge
    exact .inr (.inr (g.mem_successors.mpr hedge))

/-- At the end of a search all that is reached has been visited. -/
theorem visited_of_reaches (h : s.Tracks g kind source []) (hlevel : s.level = [])
    (hv : g.Reaches source v) : v ∈ s.visited := by
  have hdone : ∀ {u w}, u = source ∨ u ∈ s.visited ∧ g.kind? u = some .unknown → (u, w) ∈ g.edges →
      w ∈ s.visited := by
    intro u w hu hedge
    rcases h.closed u w hu hedge with hold | hnone | hnext
    · exact hold
    · exact absurd hnone List.not_mem_nil
    · rw [hlevel] at hnext
      exact absurd hnext List.not_mem_nil
  induction hv with
  | edge hedge => exact hdone (.inl rfl) hedge
  | through _ hkind hedge ih => exact hdone (.inr ⟨ih, hkind⟩) hedge

end Search.Tracks

/-- A concrete vertex clashes with the concrete vertices of other kinds that it reaches. -/
theorem mem_clashes_iff (hg : ∀ edge ∈ g.edges, edge.2 < g.size) (hkind : g.kind? source = some kind)
    (hconcrete : kind ≠ .unknown) :
    v ∈ g.clashes source ↔ g.Reaches source v ∧ g.Opposes kind v := by
  have hclashes : g.clashes source = (g.search kind (g.size + 1)
      { visited := [source], clashing := [], level := g.successors source }).clashing := by
    unfold clashes
    rw [hkind]
    cases kind with
    | unknown => exact absurd rfl hconcrete
    | _ => rfl
  have hwithin : Search.Within g
      { visited := [source], clashing := [], level := g.successors source } := by
    refine ⟨List.nodup_singleton source, fun w hw => ?_, fun w hw => ?_⟩
    · rw [List.mem_singleton.mp hw]
      exact g.kind?_lt_size hkind
    · exact hg (source, w) (g.mem_successors.mp hw)
  have hend := level_search kind hg (g.size + 1) hwithin (by
    rw [List.length_singleton]
    omega)
  have htracks := (Search.Tracks.start hkind).search (g.size + 1)
  rw [hclashes, htracks.clashing]
  refine ⟨fun ⟨hvisited, hopposes⟩ => ⟨?_, hopposes⟩, fun ⟨hreached, hopposes⟩ =>
    ⟨htracks.visited_of_reaches hend hreached, hopposes⟩⟩
  refine (htracks.visited v hvisited).resolve_left ?_
  rintro rfl
  obtain ⟨found, hfound, -, hne⟩ := hopposes
  exact hne (Option.some.inj (hfound.symm.trans hkind))

/-- The mismatches of a graph are those of concrete vertices of different kinds of which one reaches
the other. -/
theorem mem_mismatches_iff (hg : ∀ edge ∈ g.edges, edge.2 < g.size) {m : Mismatch} :
    m ∈ g.mismatches ↔ ∃ source v, ∃ lower upper : Vertex, g.vertices[source]? = some lower ∧
      g.vertices[v]? = some upper ∧ lower.kind ≠ .unknown ∧ upper.kind ≠ .unknown ∧
      upper.kind ≠ lower.kind ∧ g.Reaches source v ∧
      m = { expected := lower.kind, found := upper.kind, node := upper.node } := by
  unfold mismatches
  simp only [List.mem_flatMap, List.mem_filterMap, List.mem_range]
  constructor
  · rintro ⟨source, hlt, v, hv, hm⟩
    obtain ⟨lower, hlower⟩ : ∃ lower, g.vertices[source]? = some lower :=
      ⟨_, Array.getElem?_eq_getElem hlt⟩
    have hkind : g.kind? source = some lower.kind := by rw [kind?, hlower]; rfl
    have hconcrete : lower.kind ≠ .unknown := by
      intro hunknown
      unfold clashes at hv
      rw [hkind, hunknown] at hv
      exact absurd hv List.not_mem_nil
    obtain ⟨hreached, found, hfound, hfoundConcrete, hne⟩ :=
      (mem_clashes_iff hg hkind hconcrete).mp hv
    obtain ⟨upper, hupper, rfl⟩ := Option.map_eq_some_iff.mp hfound
    simp only [mismatch?, hlower, hupper, bind, Option.bind, pure, Option.some.injEq] at hm
    exact ⟨source, v, lower, upper, hlower, hupper, hconcrete, hfoundConcrete, hne, hreached,
      hm.symm⟩
  · rintro ⟨source, v, lower, upper, hlower, hupper, hconcrete, hfound, hne, hreached, rfl⟩
    have hkind : g.kind? source = some lower.kind := by rw [kind?, hlower]; rfl
    have hopposes : g.Opposes lower.kind v := ⟨upper.kind, by rw [kind?, hupper]; rfl, hfound, hne⟩
    refine ⟨source, g.kind?_lt_size hkind, v,
      (mem_clashes_iff hg hkind hconcrete).mpr ⟨hreached, hopposes⟩, ?_⟩
    simp only [mismatch?, hlower, hupper, bind, Option.bind, pure]

end Abacus.FlowGraph
