import DiskAnn.Graph.SearchRun

/-! # The pages of a paged search

A paged search resumes its search with every page, takes the closest candidates out of the queue and
never sees them again. The seeds of the search, whose neighbors begin it, are marked as visited before
the queue has met them, so that no page holds one of them. For the default seeds, the start points, the
pages up to the first empty one are the nodes that can be reached, apart from the start points.
-/

namespace DiskAnn

open List SlotQueue

namespace PagedSearch

open Search (Explored remaining)

variable {I σ E : Type} [DecidableEq I] {A : SearchAccessor I σ E} {G : FiniteGraph I}
  {distance : I → F32} {starts seeds : List I} {q : SlotQueue I} {visited : Finset I}
  {drained : List (Neighbor I)}

/-! ## The state between hops -/

/-- The state of a paged search that began with `seeds` and has taken `drained` out of the queue. -/
structure Paging (G : FiniteGraph I) (distance : I → F32) (starts seeds : List I) (q : SlotQueue I)
    (visited : Finset I) (drained : List (Neighbor I)) : Prop
    extends Explored G distance q visited where
  auto : q.autoResizable = true
  seeded : ∀ id ∈ seeds, id ∈ visited
  once : (drained.map (·.id)).Nodup
  taken : ∀ nbr ∈ drained, nbr.id ∈ visited ∧ nbr.id ∉ seeds ∧ (distance nbr.id).isNan = false
  apart : ∀ nbr ∈ q.neighbors, nbr.id ∉ seeds ∧ nbr.id ∉ drained.map (·.id)
  known : ∀ id ∈ visited, id ∈ seeds ∨ id ∈ q.neighbors.map (·.id) ∨ id ∈ drained.map (·.id) ∨
    (distance id).isNan = true
  flagged : ∀ slot ∈ q.slots, slot.visited = true → ∀ id ∈ G.neighbors slot.id, id ∈ visited
  expanded : ∀ id, id ∈ seeds ∨ id ∈ drained.map (·.id) →
    ∀ neighbor ∈ G.neighbors id, neighbor ∈ visited
  reached : ∀ id ∈ visited, G.Reachable (starts ++ seeds) id

namespace Paging

variable {t : SlotQueue I} {beam reported : List (Neighbor I)}

omit [DecidableEq I] in
theorem mem_neighbors_iff (auto : q.autoResizable = true) (walked : q.Beam beam t)
    (reported : List (Neighbor I)) (nbr : Neighbor I) :
    nbr ∈ (t.insertAll reported).neighbors ↔
      nbr ∈ reported ∧ nbr.distance.isNan = false ∨ nbr ∈ q.neighbors := by
  have perm := perm_insertAll_of_autoResizable (walked.configuration.2.1.trans auto) reported
  rw [perm.mem_iff, walked.neighbors, mem_append, mem_filter, Bool.not_eq_true']

theorem hop (paging : Paging G distance starts seeds q visited drained) (walked : q.Beam beam t)
    (reports : Reports G distance (beam.map (·.id)) visited reported) :
    Paging G distance starts seeds (t.insertAll reported)
      (visited ∪ (reported.map (·.id)).toFinset) drained := by
  have neighbors := mem_neighbors_iff paging.auto walked reported
  have edges : ∀ id ∈ beam.map (·.id), ∀ neighbor ∈ G.neighbors id,
      neighbor ∈ visited ∪ (reported.map (·.id)).toFinset := by
    intro id visits neighbor edge
    rw [Finset.mem_union, mem_toFinset]
    by_cases old : neighbor ∈ visited
    · exact .inl old
    · exact .inr (mem_map.mpr ⟨⟨neighbor, distance neighbor⟩,
        (reports.mem_iff _).mpr ⟨rfl, old, id, visits, edge⟩, rfl⟩)
  refine ⟨paging.toExplored.hop walked reports,
    (t.insertAll_autoResizable _).trans (walked.configuration.2.1.trans paging.auto),
    fun id seed => Finset.mem_union_left _ (paging.seeded id seed), paging.once,
    fun nbr mem => ⟨Finset.mem_union_left _ (paging.taken nbr mem).1, (paging.taken nbr mem).2⟩,
    fun nbr mem => ?_, fun id mem => ?_, fun slot mem flag => ?_,
    fun id begun neighbor edge => Finset.mem_union_left _ (paging.expanded id begun neighbor edge),
    fun id mem => ?_⟩
  · rcases (neighbors nbr).mp mem with ⟨new, -⟩ | old
    · have fresh := Explored.reported_fresh reports nbr new
      refine ⟨fun seed => fresh (paging.seeded _ seed), fun gone => fresh ?_⟩
      obtain ⟨other, mem, same⟩ := mem_map.mp gone
      exact same ▸ (paging.taken other mem).1
    · exact paging.apart nbr old
  · rcases Finset.mem_union.mp mem with old | new
    · rcases paging.known id old with seed | queued | rest
      · exact .inl seed
      · obtain ⟨nbr, held, rfl⟩ := mem_map.mp queued
        exact .inr (.inl (mem_map_of_mem ((neighbors nbr).mpr (.inr held))))
      · exact .inr (.inr rest)
    · obtain ⟨nbr, report, rfl⟩ := mem_map.mp (mem_toFinset.mp new)
      rw [← ((reports.mem_iff nbr).mp report).1]
      cases number : nbr.distance.isNan with
      | true => exact .inr (.inr (.inr rfl))
      | false =>
        exact .inr (.inl (mem_map_of_mem ((neighbors nbr).mpr (.inl ⟨report, number⟩))))
  · rcases mem_insertAll_slots mem with ⟨nbr, -, rfl⟩ | held
    · cases flag
    · rcases walked.visited_cases held flag with old | visits
      · exact fun id edge => Finset.mem_union_left _ (paging.flagged slot old flag id edge)
      · exact edges slot.id (mem_map_of_mem visits)
  · rcases Finset.mem_union.mp mem with old | new
    · exact paging.reached id old
    · obtain ⟨nbr, report, rfl⟩ := mem_map.mp (mem_toFinset.mp new)
      obtain ⟨-, -, source, visits, edge⟩ := (reports.mem_iff nbr).mp report
      obtain ⟨other, mem, rfl⟩ := mem_map.mp visits
      obtain ⟨root, start, path⟩ := paging.reached _ (paging.held _ (walked.subset _ mem)).1
      exact ⟨root, start, path.tail edge⟩

/-- A search that has visited nothing begins with the start points. -/
theorem enter (paging : Paging G distance starts seeds q ∅ drained) (distinct : starts.Nodup)
    (inside : ∀ id ∈ starts, id ∈ G.nodes)
    (reports : reported.Perm (starts.map fun id => ⟨id, distance id⟩)) :
    Paging G distance starts seeds (q.insertAll reported) (∅ ∪ (reported.map (·.id)).toFinset)
      drained := by
  obtain rfl : seeds = [] := eq_nil_iff_forall_not_mem.mpr fun id seed =>
    Finset.notMem_empty id (paging.seeded id seed)
  obtain rfl : drained = [] := eq_nil_iff_forall_not_mem.mpr fun nbr mem =>
    Finset.notMem_empty _ (paging.taken nbr mem).1
  have empty : q.neighbors = [] := eq_nil_iff_forall_not_mem.mpr fun nbr mem =>
    Finset.notMem_empty _ (paging.held nbr mem).1
  have slots : q.slots = [] := map_eq_nil_iff.mp empty
  have ids := Search.ids_of_starts reports
  have started : ∀ id, id ∈ ∅ ∪ (reported.map (·.id)).toFinset ↔ id ∈ starts := by
    intro id
    rw [Finset.empty_union, mem_toFinset, ids.mem_iff]
  have reportedAt := Search.distance_of_starts reports
  have neighbors := mem_neighbors_iff paging.auto (.done q) reported
  simp only [empty, not_mem_nil, or_false] at neighbors
  have nodup : (reported.map (·.id) ++ q.slots.map Slot.id).Nodup := by
    rw [slots, map_nil, append_nil]
    exact ids.nodup_iff.mpr distinct
  refine ⟨⟨paging.room.insertAll _, paging.behind.insertAll _, .insertAll nodup,
      fun id mem => inside id ((started id).mp mem), fun nbr mem => ?_⟩,
    (q.insertAll_autoResizable _).trans paging.auto, forall_mem_nil _, nodup_nil,
    forall_mem_nil _, fun nbr _ => ⟨not_mem_nil, not_mem_nil⟩, fun id mem => ?_,
    fun slot mem flag => ?_, fun id begun => ?_, fun id mem => ?_⟩
  · have report := ((neighbors nbr).mp mem).1
    exact ⟨(started _).mpr (ids.mem_iff.mp (mem_map_of_mem report)), reportedAt nbr report⟩
  · rw [started, ← ids.mem_iff] at mem
    obtain ⟨nbr, report, rfl⟩ := mem_map.mp mem
    rw [← reportedAt nbr report]
    cases number : nbr.distance.isNan with
    | true => exact .inr (.inr (.inr rfl))
    | false => exact .inr (.inl (mem_map_of_mem ((neighbors nbr).mpr ⟨report, number⟩)))
  · rcases mem_insertAll_slots mem with ⟨nbr, -, rfl⟩ | held
    · cases flag
    · rw [slots] at held
      cases held
  · rcases begun with seed | gone
    · cases seed
    · cases gone
  · exact ⟨id, mem_append_left _ ((started id).mp mem), .refl⟩

omit [DecidableEq I] in
/-- The visited entries at the front are taken out. -/
theorem drain (paging : Paging G distance starts seeds q visited drained) {n : ℕ}
    (passed : min n q.slots.length ≤ q.cursor) :
    Paging G distance starts seeds (q.drainBest n) visited (drained ++ q.neighbors.take n) := by
  have rest : (q.drainBest n).neighbors = q.neighbors.drop n := map_drop ..
  have nodup : ((q.neighbors.take n).map (·.id) ++ (q.neighbors.drop n).map (·.id)).Nodup := by
    rw [← map_append, take_append_drop, ← Explored.ids_eq]
    exact paging.distinct
  have ended : ∀ nbr ∈ q.neighbors.take n, ∀ id ∈ G.neighbors nbr.id, id ∈ visited := by
    intro nbr mem
    rw [neighbors, ← map_take] at mem
    obtain ⟨slot, front, rfl⟩ := mem_map.mp mem
    obtain ⟨index, inside, rfl⟩ := getElem_of_mem front
    rw [length_take] at inside
    have early : index < q.slots.findIdx fun slot => !slot.visited :=
      (inside.trans_le passed).trans_le paging.behind
    have flag := not_of_lt_findIdx early
    rw [getElem_take]
    exact paging.flagged _ (getElem_mem _) (by simpa using flag)
  refine ⟨⟨.inl paging.auto, Nat.zero_le _, (drop_sublist ..).map Slot.id |>.nodup paging.distinct,
      paging.inside, fun nbr mem => ?_⟩, paging.auto, paging.seeded, ?_, fun nbr mem => ?_,
    fun nbr mem => ?_, fun id mem => ?_, fun slot mem => ?_, fun id begun => ?_, paging.reached⟩
  · rw [rest] at mem
    exact paging.held nbr (mem_of_mem_drop mem)
  · rw [map_append]
    refine List.Nodup.append paging.once (nodup_append.mp nodup).1 ?_
    intro id gone front
    obtain ⟨nbr, mem, rfl⟩ := mem_map.mp front
    exact (paging.apart nbr (mem_of_mem_take mem)).2 gone
  · rcases mem_append.mp mem with gone | front
    · exact paging.taken nbr gone
    · have held := mem_of_mem_take front
      obtain ⟨slot, inside, rfl⟩ := mem_map.mp held
      refine ⟨(paging.held _ held).1, (paging.apart _ held).1, ?_⟩
      rw [← (paging.held _ held).2]
      exact q.number slot inside
  · rw [rest] at mem
    refine ⟨(paging.apart nbr (mem_of_mem_drop mem)).1, fun gone => ?_⟩
    rw [map_append, mem_append] at gone
    rcases gone with gone | front
    · exact (paging.apart nbr (mem_of_mem_drop mem)).2 gone
    · exact (nodup_append.mp nodup).2.2 _ front _ (mem_map_of_mem mem) rfl
  · rw [rest, map_append, mem_append]
    rcases paging.known id mem with seed | queued | gone | nan
    · exact .inl seed
    · rw [← take_append_drop n q.neighbors, map_append, mem_append] at queued
      rcases queued with front | behind
      · exact .inr (.inr (.inl (.inr front)))
      · exact .inr (.inl behind)
    · exact .inr (.inr (.inl (.inl gone)))
    · exact .inr (.inr (.inr nan))
  · exact paging.flagged slot (mem_of_mem_drop mem)
  · rw [map_append, mem_append] at begun
    rcases begun with seed | gone | front
    · exact paging.expanded id (.inl seed)
    · exact paging.expanded id (.inr gone)
    · obtain ⟨nbr, mem, rfl⟩ := mem_map.mp front
      exact ended nbr mem

/-- The seeds have been expanded. -/
theorem begin (inside : ∀ id ∈ seeds, id ∈ G.nodes) (capacity : ℕ)
    (reports : Reports G distance seeds seeds.toFinset reported) :
    Paging G distance starts seeds ((empty capacity true).insertAll reported)
      (seeds.toFinset ∪ (reported.map (·.id)).toFinset) [] := by
  have room : (empty capacity true : SlotQueue I).HasRoom := .inl rfl
  have behind : (empty capacity true : SlotQueue I).Behind := le_rfl
  have fresh : ∀ nbr ∈ reported, nbr.id ∉ seeds := fun nbr report seed =>
    ((reports.mem_iff nbr).mp report).2.1 (mem_toFinset.mpr seed)
  have visited : ∀ id, id ∈ seeds.toFinset ∪ (reported.map (·.id)).toFinset ↔
      id ∈ seeds ∨ id ∈ reported.map (·.id) := by
    intro id
    rw [Finset.mem_union, mem_toFinset, mem_toFinset]
  have neighbors : ∀ nbr, nbr ∈ ((empty capacity true).insertAll reported).neighbors ↔
      nbr ∈ reported ∧ nbr.distance.isNan = false := by
    intro nbr
    rw [mem_neighbors_iff rfl (.done _)]
    exact or_iff_left not_mem_nil
  have edges : ∀ id ∈ seeds, ∀ neighbor ∈ G.neighbors id, neighbor ∈ seeds ∨
      neighbor ∈ reported.map (·.id) := by
    intro id seed neighbor edge
    by_cases old : neighbor ∈ seeds
    · exact .inl old
    · exact .inr (mem_map.mpr ⟨⟨neighbor, distance neighbor⟩, (reports.mem_iff _).mpr
        ⟨rfl, fun there => old (mem_toFinset.mp there), id, seed, edge⟩, rfl⟩)
  refine ⟨⟨room.insertAll _, behind.insertAll _, .insertAll ?_, fun id mem => ?_,
      fun nbr mem => ?_⟩, (insertAll_autoResizable ..).trans rfl,
    fun id seed => (visited id).mpr (.inl seed), nodup_nil, forall_mem_nil _,
    fun nbr mem => ⟨fresh nbr ((neighbors nbr).mp mem).1, not_mem_nil⟩, fun id mem => ?_,
    fun slot mem flag => ?_, fun id begun => ?_, fun id mem => ?_⟩
  · exact (append_nil _).symm ▸ reports.nodup
  · rcases (visited id).mp mem with seed | new
    · exact inside id seed
    · obtain ⟨nbr, report, rfl⟩ := mem_map.mp new
      obtain ⟨-, -, source, seed, edge⟩ := (reports.mem_iff nbr).mp report
      exact G.closed source (inside source seed) _ edge
  · have report := ((neighbors nbr).mp mem).1
    exact ⟨(visited _).mpr (.inr (mem_map_of_mem report)), ((reports.mem_iff nbr).mp report).1⟩
  · rcases (visited id).mp mem with seed | new
    · exact .inl seed
    · obtain ⟨nbr, report, rfl⟩ := mem_map.mp new
      rw [← ((reports.mem_iff nbr).mp report).1]
      cases number : nbr.distance.isNan with
      | true => exact .inr (.inr (.inr rfl))
      | false => exact .inr (.inl (mem_map_of_mem ((neighbors nbr).mpr ⟨report, number⟩)))
  · rcases mem_insertAll_slots mem with ⟨nbr, -, rfl⟩ | held
    · cases flag
    · cases held
  · intro neighbor edge
    rcases begun with seed | gone
    · exact (visited _).mpr (edges id seed neighbor edge)
    · cases gone
  · rcases (visited id).mp mem with seed | new
    · exact ⟨id, mem_append_right _ seed, .refl⟩
    · obtain ⟨nbr, report, rfl⟩ := mem_map.mp new
      obtain ⟨-, -, source, seed, edge⟩ := (reports.mem_iff nbr).mp report
      exact ⟨source, mem_append_right _ seed, .single edge⟩

variable (lawful : A.Lawful G distance starts)
include lawful

/-- A hop keeps the state and has less left to do. -/
theorem step {s : Search I σ} {window : ℕ}
    (paging : Paging G distance starts seeds q s.scratch.visited drained)
    (stored : s.scratch.best = q.toQueue) (same : q.searchParamL = window)
    (has : s.scratch.best.hasNotvisitedNode = true) (a : σ) :
    ∃ s', Search.hop A 1 { s with accessor := a } = pure s' ∧
      (∃ q' : SlotQueue I, s'.scratch.best = q'.toQueue ∧ q'.searchParamL = window ∧
        Paging G distance starts seeds q' s'.scratch.visited drained) ∧
      remaining G s' < remaining G s := by
  obtain ⟨beam, t, reported, s', walked, nonempty, reports, hopped, stored', visited', -⟩ :=
    Search.hop_eq (s := { s with accessor := a }) lawful stored paging.room 1
  refine ⟨s', hopped, ⟨t.insertAll reported, stored', ?_, ?_⟩, ?_⟩
  · exact (t.insertAll_searchParamL _).trans (walked.configuration.2.2.trans same)
  · rw [visited']
    exact paging.hop walked reports
  · exact paging.toExplored.remaining_lt walked (nonempty one_pos (stored ▸ has)) reports stored
      stored' visited'

/-- The main loop ends with every entry of the window visited. -/
theorem loop {s : Search I σ}
    (paging : Paging G distance starts seeds q s.scratch.visited drained)
    (stored : s.scratch.best = q.toQueue) :
    ∃ s' q', (∀ fuel, (G.nodes.card + 1) ^ 2 ≤ fuel → Search.loop A 1 fuel s = pure s') ∧
      s'.scratch.best = q'.toQueue ∧ q'.searchParamL = q.searchParamL ∧
      Paging G distance starts seeds q' s'.scratch.visited drained ∧
      q'.toQueue.hasNotvisitedNode = false ∧ (q.slots = [] → q'.slots = []) := by
  obtain ⟨s', looped, ⟨q', stored', same, paging'⟩, done⟩ := Search.loop_ends
    (P := fun s => ∃ q' : SlotQueue I, s.scratch.best = q'.toQueue ∧
      q'.searchParamL = q.searchParamL ∧ Paging G distance starts seeds q' s.scratch.visited drained)
    (fun s a ⟨_, stored', same, paging'⟩ has => paging'.step lawful stored' same has a)
    (fun s a held _ => held) ⟨q, stored, rfl, paging⟩
  have bound := paging.toExplored.remaining_lt_square stored
  refine ⟨s', q', fun fuel enough => looped fuel (bound.trans_le enough), stored', same, paging',
    stored' ▸ done lawful.terminate_early, fun empty => ?_⟩
  -- without entries the loop answers the state it is given
  have stays : Search.loop A 1 (remaining G s + 1) s = pure s := by
    have none : s.scratch.best.hasNotvisitedNode = false := by
      rw [stored]
      simp [NeighborPriorityQueue.hasNotvisitedNode, toQueue, empty]
    simp [Search.loop, none]
  have equal := Except.ok.inj (Option.some.inj ((looped _ (Nat.lt_succ_self _)).symm.trans stays))
  have sizes : q'.toQueue.size = q.toQueue.size := by rw [← stored', ← stored, equal]
  exact eq_nil_of_length_eq_zero (sizes.trans (congrArg List.length empty))

/-- `search_internal` resumes the search. -/
theorem search {s : Search I σ}
    (distinct : seeds = [] → starts.Nodup) (inside : ∀ id ∈ starts, id ∈ G.nodes)
    (paging : Paging G distance starts seeds q s.scratch.visited drained)
    (stored : s.scratch.best = q.toQueue) :
    ∃ stats s' q', (∀ fuel, (G.nodes.card + 1) ^ 2 ≤ fuel →
        Search.searchInternal A fuel none s = pure (stats, s')) ∧
      s'.scratch.best = q'.toQueue ∧ q'.searchParamL = q.searchParamL ∧
      Paging G distance starts seeds q' s'.scratch.visited drained ∧
      q'.toQueue.hasNotvisitedNode = false ∧
      ((∀ id ∈ starts, id ∈ seeds) → q.slots = [] → q'.slots = []) := by
  have entered : ∃ s₀ q₀, Search.enterStartPoints A s = pure s₀ ∧ s₀.scratch.best = q₀.toQueue ∧
      q₀.searchParamL = q.searchParamL ∧
      Paging G distance starts seeds q₀ s₀.scratch.visited drained ∧
      ((∀ id ∈ starts, id ∈ seeds) → q.slots = [] → q₀.slots = []) := by
    by_cases fresh : s.scratch.visited = ∅
    · obtain ⟨reported, s₀, reports, entered, stored₀, visited₀, -⟩ :=
        Search.enterStartPoints_eq lawful stored paging.room fresh
      rw [fresh] at paging
      have none : seeds = [] := eq_nil_iff_forall_not_mem.mpr fun id seed =>
        Finset.notMem_empty id (paging.seeded id seed)
      refine ⟨s₀, q.insertAll reported, entered, stored₀, q.insertAll_searchParamL _, ?_, ?_⟩
      · rw [visited₀]
        exact paging.enter (distinct none) inside reports
      · intro covered empty
        subst none
        obtain rfl : starts = [] := eq_nil_iff_forall_not_mem.mpr fun id start =>
          not_mem_nil (covered id start)
        obtain rfl := perm_nil.mp reports
        exact empty
    · exact ⟨s, q, Search.enterStartPoints_of_visited fresh, stored, rfl, paging, fun _ empty => empty⟩
  obtain ⟨s₀, q₀, entered, stored₀, same₀, paging₀, empty₀⟩ := entered
  obtain ⟨s', q', looped, stored', same', paging', done, empty'⟩ := paging₀.loop lawful stored₀
  refine ⟨⟨s'.scratch.cmps, s'.scratch.hops, false⟩, s', q', fun fuel enough => ?_, stored',
    same'.trans same₀, paging', done, fun covered empty => empty' (empty₀ covered empty)⟩
  rw [Search.searchInternal, entered, pure_bind, Option.getD_none, looped fuel enough, pure_bind]

end Paging

/-! ## One page -/

/-- The candidates are those entries of a prefix that are no start points; the prefix ends with the
page or with the entries. -/
theorem filterFrom_eq (starts : List I) (k : ℕ) (entries candidates : List (Neighbor I))
    (total : ℕ) (few : candidates.length < k) :
    ∃ n ≤ entries.length, ∃ found,
      found = candidates ++ (entries.take n).filter (fun nbr => nbr.id ∉ starts) ∧
      filterFrom starts k entries (candidates, total) = (found, total + n) ∧ found.length ≤ k ∧
      (found.length = k ∨ n = entries.length) := by
  induction entries generalizing candidates total with
  | nil => exact ⟨0, le_rfl, candidates, (append_nil _).symm, rfl, few.le, .inr rfl⟩
  | cons nbr entries ih =>
    unfold filterFrom
    by_cases start : nbr.id ∈ starts
    · obtain ⟨n, le, found, rfl, filtered, bound, ends⟩ := ih candidates (total + 1) few
      refine ⟨n + 1, Nat.succ_le_succ le, _, rfl, ?_, ?_, ?_⟩
      · rw [if_pos start, filtered, take_succ_cons, filter_cons_of_neg (by simp [start]),
          add_right_comm, add_assoc]
      · rwa [take_succ_cons, filter_cons_of_neg (by simp [start])]
      · rw [take_succ_cons, filter_cons_of_neg (by simp [start])]
        exact ends.imp_right (congrArg (· + 1))
    · rw [if_neg start]
      have length : (candidates ++ [nbr]).length = candidates.length + 1 := length_append
      by_cases full : k ≤ (candidates ++ [nbr]).length
      · refine ⟨1, by simp, candidates ++ [nbr], by simp [start], if_pos full, by omega, .inl ?_⟩
        omega
      · obtain ⟨n, le, found, rfl, filtered, bound, ends⟩ := ih (candidates ++ [nbr]) (total + 1) (not_le.mp full)
        refine ⟨n + 1, Nat.succ_le_succ le, _, ?_, ?_, bound, ?_⟩
        · rw [take_succ_cons, filter_cons_of_pos (by simp [start]), append_assoc]
          rfl
        · rw [if_neg full, filtered, add_right_comm, add_assoc]
        · exact ends.imp_right (congrArg (· + 1))

/-- The state between two pages: nothing is left in the cache. -/
structure Ready (G : FiniteGraph I) (distance : I → F32) (starts seeds : List I) (l : ℕ)
    (p : PagedSearch I σ) (q : SlotQueue I) (drained : List (Neighbor I)) : Prop where
  stored : p.scratch.best = q.toQueue
  cached : p.nextResultIndex = p.computedResult.length
  param : p.searchParamL = l
  window : q.searchParamL = l + starts.length
  paging : Paging G distance starts seeds q p.scratch.visited drained

variable {l k : ℕ} {p : PagedSearch I σ}

theorem nextPage_eq_resume (cached : p.nextResultIndex = p.computedResult.length) (fuel : ℕ)
    (pos : 1 ≤ k) (few : k ≤ p.searchParamL) :
    nextPage A fuel k p = resume A fuel k [] p := by
  unfold nextPage
  rw [if_neg (by omega), if_neg (by omega), cached, Nat.sub_self, Nat.min_zero]
  rw [if_neg (by simp), take_zero, add_zero, ← cached]

/-- A page is what is taken from the front of the queue, without start points. -/
theorem Ready.nextPage (lawful : A.Lawful G distance starts)
    (distinct : seeds = [] → starts.Nodup) (inside : ∀ id ∈ starts, id ∈ G.nodes)
    (ready : Ready G distance starts seeds l p q drained) (pos : 1 ≤ k) (few : k ≤ l) :
    ∃ taken page p' q', (∀ fuel, (G.nodes.card + 1) ^ 2 ≤ fuel →
        nextPage A fuel k p = pure (page, p')) ∧
      Ready G distance starts seeds l p' q' (drained ++ taken) ∧
      page = taken.filter (fun nbr => nbr.id ∉ starts) ∧ page.length ≤ k ∧
      page.Pairwise (·.distance.key ≤ ·.distance.key) ∧
      ((∀ id ∈ starts, id ∈ seeds) →
        (page.length < k → q'.slots = []) ∧ (q.slots = [] → page = [] ∧ q'.slots = [])) := by
  obtain ⟨stats, s, q₁, searched, stored₁, window₁, paging₁, done, empty₁⟩ :=
    Paging.search (s := ⟨p.accessor, p.scratch, []⟩) lawful distinct inside ready.paging ready.stored
  have iter : s.scratch.best.iter = q₁.neighbors.take (l + starts.length) := by
    rw [stored₁, q₁.toQueue_iter, window₁, ready.window, neighbors, map_take]
  obtain ⟨n, le, found, candidates, filtered, bound, ends⟩ := filterFrom_eq starts k
    s.scratch.best.iter [] 0 pos
  rw [nil_append] at candidates
  rw [zero_add, stored₁] at filtered
  rw [iter] at candidates le ends
  rw [length_take, length_neighbors] at le ends
  rw [take_take, min_eq_left (by omega)] at candidates
  have passed : min n q₁.slots.length ≤ q₁.cursor := by
    have window : ¬ q₁.cursor < min q₁.searchParamL q₁.slots.length := of_decide_eq_false done
    rw [window₁, ready.window] at window
    omega
  have page : found.take (min k found.length) = found := take_of_length_le (by omega)
  refine ⟨q₁.neighbors.take n, found, { p with
      accessor := s.accessor
      scratch := { s.scratch with best := (q₁.drainBest n).toQueue }
      computedResult := found
      nextResultIndex := min k found.length }, q₁.drainBest n, fun fuel enough => ?_,
    ⟨rfl, min_eq_right bound, ready.param, window₁.trans ready.window, paging₁.drain passed⟩,
    candidates, bound, ?_, fun covered => ⟨fun short => ?_, fun empty => ?_⟩⟩
  · rw [nextPage_eq_resume ready.cached fuel pos (ready.param ▸ few)]
    simp only [resume, searched fuel enough, pure_bind, lawful.starting_points, Search.liftM_ok,
      filterSearchCandidates, stored₁, filtered, length_nil, Nat.sub_zero, page,
      nil_append, q₁.toQueue_drainBest]
  · rw [candidates]
    have sorted : q₁.neighbors.Pairwise (·.distance.key ≤ ·.distance.key) :=
      pairwise_map.mpr q₁.sorted
    exact sorted.sublist (filter_sublist.trans (take_sublist ..))
  · have all : found = q₁.neighbors.take n := by
      rw [candidates, filter_eq_self]
      intro nbr mem
      have fresh := (paging₁.apart nbr (mem_of_mem_take mem)).1
      exact decide_eq_true fun start => fresh (covered _ start)
    have length : found.length = n := by
      rw [all, length_take, length_neighbors]
      omega
    exact drop_of_length_le (by omega)
  · have none := empty₁ covered empty
    refine ⟨?_, ?_⟩
    · rw [candidates, neighbors, none]
      simp
    · change q₁.slots.drop n = []
      rw [none, drop_nil]

/-! ## All pages -/

variable {ks : List ℕ} {pages : List (List (Neighbor I))}

/-- The pages after each other take more and more out of the queue. -/
theorem Ready.nextPages (lawful : A.Lawful G distance starts)
    (distinct : seeds = [] → starts.Nodup) (inside : ∀ id ∈ starts, id ∈ G.nodes)
    (ready : Ready G distance starts seeds l p q drained) (sizes : ∀ k ∈ ks, 1 ≤ k ∧ k ≤ l) :
    ∃ taken pages p' q', (∀ fuel, (G.nodes.card + 1) ^ 2 ≤ fuel →
        nextPages A fuel ks p = pure (pages, p')) ∧
      Ready G distance starts seeds l p' q' (drained ++ taken) ∧
      pages.flatten = taken.filter (fun nbr => nbr.id ∉ starts) ∧
      List.Forall₂ (fun k page => page.length ≤ k ∧
        page.Pairwise (·.distance.key ≤ ·.distance.key)) ks pages ∧
      ((∀ id ∈ starts, id ∈ seeds) →
        (ks.zip pages).Pairwise (fun earlier later => earlier.2.length < earlier.1 → later.2 = []) ∧
        ((∃ asked ∈ ks.zip pages, asked.2.length < asked.1) → q'.slots = []) ∧
        (q.slots = [] → (∀ page ∈ pages, page = []) ∧ q'.slots = [])) := by
  induction ks generalizing p q drained with
  | nil =>
    refine ⟨[], [], p, q, fun _ _ => rfl, (append_nil drained).symm ▸ ready, rfl, .nil,
      fun _ => ⟨.nil, fun ⟨_, mem, _⟩ => absurd mem not_mem_nil, fun empty =>
        ⟨forall_mem_nil _, empty⟩⟩⟩
  | cons k ks ih =>
    obtain ⟨size, sizes⟩ := forall_mem_cons.mp sizes
    obtain ⟨taken, page, p₁, q₁, paged, ready₁, filtered, bound, sorted, exhausts⟩ :=
      ready.nextPage lawful distinct inside size.1 size.2
    obtain ⟨taken', pages, p', q', ran, ready', filtered', bounds, exhausts'⟩ := ih ready₁ sizes
    refine ⟨taken ++ taken', page :: pages, p', q', fun fuel enough => ?_,
      append_assoc .. ▸ ready', ?_, .cons ⟨bound, sorted⟩ bounds, fun covered => ?_⟩
    · simp only [PagedSearch.nextPages, paged fuel enough, ran fuel enough, pure_bind]
    · rw [flatten_cons, filtered, filtered', filter_append]
    · obtain ⟨short, emptied⟩ := exhausts covered
      obtain ⟨later, short', emptied'⟩ := exhausts' covered
      refine ⟨?_, ?_, fun empty => ?_⟩
      · refine .cons (fun asked mem few => ?_) later
        exact (emptied' (short few)).1 _ (of_mem_zip mem).2
      · rintro ⟨asked, mem, few⟩
        rcases mem_cons.mp mem with rfl | mem
        · exact (emptied' (short few)).2
        · exact short' ⟨asked, mem, few⟩
      · obtain ⟨none, empty₁⟩ := emptied empty
        exact ⟨forall_mem_cons.mpr ⟨none, (emptied' empty₁).1⟩, (emptied' empty₁).2⟩

/-- What is taken out is in no page twice, and no seed. -/
theorem Ready.nodup_flatten {taken : List (Neighbor I)}
    (ready : Ready G distance starts seeds l p q taken)
    (filtered : pages.flatten = taken.filter (fun nbr => nbr.id ∉ starts)) :
    (pages.flatten.map (·.id)).Nodup := by
  rw [filtered]
  exact (filter_sublist.map _).nodup ready.paging.once

/-- What the pages of a search from the start points are. An empty page is shorter than what it was
asked for; the last part says when the pages are then all there is to reach. -/
structure PagesCorrect (G : FiniteGraph I) (distance : I → F32) (starts : List I) (ks : List ℕ)
    (pages : List (List (Neighbor I))) : Prop where
  sizes : Forall₂ (fun k page => page.length ≤ k ∧
    page.Pairwise (·.distance.key ≤ ·.distance.key)) ks pages
  distinct : (pages.flatten.map (·.id)).Nodup
  exhausted : (ks.zip pages).Pairwise fun earlier later =>
    earlier.2.length < earlier.1 → later.2 = []
  ends : G.nodes.card < ks.length → [] ∈ pages
  complete : (∃ asked ∈ ks.zip pages, asked.2.length < asked.1) →
    ((∀ id, id ∈ pages.flatten.map (·.id) ↔ G.Reachable starts id ∧ id ∉ starts) ↔
      ∀ id, G.Reachable starts id → id ∉ starts → (distance id).isNan = false)

/-- With nothing left in the queue, all that can be reached has been visited. -/
theorem Paging.visited_of_reachable (paging : Paging G distance starts starts q visited drained)
    (empty : q.slots = [])
    (numbers : ∀ id, G.Reachable starts id → id ∉ starts → (distance id).isNan = false) {id : I}
    (reachable : G.Reachable starts id) : id ∈ visited := by
  obtain ⟨root, start, path⟩ := reachable
  induction path with
  | refl => exact paging.seeded root start
  | @tail a b path edge ih =>
    rcases paging.known a ih with seed | queued | gone | nan
    · exact paging.expanded a (.inl seed) b edge
    · rw [neighbors, empty] at queued
      cases queued
    · exact paging.expanded a (.inr gone) b edge
    · by_cases seed : a ∈ starts
      · exact paging.expanded a (.inl seed) b edge
      · have number := numbers a ⟨root, start, path⟩ seed
        rw [nan] at number
        cases number

theorem Paging.complete_iff (paging : Paging G distance starts starts q visited drained)
    (empty : q.slots = []) :
    (∀ id, id ∈ drained.map (·.id) ↔ G.Reachable starts id ∧ id ∉ starts) ↔
      ∀ id, G.Reachable starts id → id ∉ starts → (distance id).isNan = false := by
  constructor
  · intro exact id reachable other
    obtain ⟨nbr, mem, rfl⟩ := mem_map.mp ((exact id).mpr ⟨reachable, other⟩)
    exact (paging.taken nbr mem).2.2
  · intro numbers id
    constructor
    · intro gone
      obtain ⟨nbr, mem, rfl⟩ := mem_map.mp gone
      obtain ⟨visits, fresh, -⟩ := paging.taken nbr mem
      obtain ⟨root, start, path⟩ := paging.reached _ visits
      exact ⟨⟨root, (mem_append.mp start).elim id id, path⟩, fresh⟩
    · rintro ⟨reachable, other⟩
      rcases paging.known id (paging.visited_of_reachable empty numbers reachable) with
        seed | queued | gone | nan
      · exact absurd seed other
      · rw [neighbors, empty] at queued
        cases queued
      · exact gone
      · have number := numbers id reachable other
        rw [nan] at number
        cases number

variable [Inhabited I]

theorem pagedSearchWithInitIds_eq (lawful : A.Lawful G distance starts) (a : σ) (l : ℕ)
    (initIds : Option (List I)) (inside : ∀ id ∈ initIds.getD starts, id ∈ G.nodes) :
    ∃ p q, pagedSearchWithInitIds A a l initIds = pure p ∧
      Ready G distance starts (initIds.getD starts) l p q [] := by
  obtain ⟨reported, a', expanded, reports⟩ :=
    lawful.expand_beam a (initIds.getD starts) (∅ ∪ (initIds.getD starts).toFinset)
  have inserted : (NeighborPriorityQueue.autoResizableWithSearchParamL
      (l + starts.length)).insertAll reported =
      some ((empty (l + starts.length) true).insertAll reported).toQueue :=
    HasRoom.toQueue_insertAll (s := .empty (l + starts.length) true) (.inl rfl) reported
  refine ⟨⟨⟨((empty (l + starts.length) true).insertAll reported).toQueue,
      ∅ ∪ (initIds.getD starts).toFinset ∪ (reported.map (·.id)).toFinset, [], 0, 0⟩,
      List.replicate l ⟨default, .zero⟩, l, l, a'⟩,
    (empty (l + starts.length) true).insertAll reported, ?_,
    rfl, length_replicate.symm, rfl, insertAll_searchParamL .., ?_⟩
  · simp only [pagedSearchWithInitIds, lawful.starting_points, Search.liftM_ok, pure_bind,
      SearchScratch.new, expanded, inserted, Search.liftM_some]
  · exact Paging.begin inside _ reports

/-- The pages of a search from the start points. -/
theorem pagedSearch_pages (lawful : A.Lawful G distance starts)
    (inside : ∀ id ∈ starts, id ∈ G.nodes) (a : σ) {l : ℕ} {ks : List ℕ}
    (sizes : ∀ k ∈ ks, 1 ≤ k ∧ k ≤ l) :
    ∃ pages p, (∀ fuel, (G.nodes.card + 1) ^ 2 ≤ fuel →
        (pagedSearch A a l >>= PagedSearch.nextPages A fuel ks) = pure (pages, p)) ∧
      PagesCorrect G distance starts ks pages := by
  obtain ⟨p, q, began, ready⟩ := pagedSearchWithInitIds_eq lawful a l none inside
  obtain ⟨taken, pages, p', q', ran, ready', filtered, bounds, exhausts⟩ :=
    ready.nextPages lawful (fun (empty : starts = []) => empty ▸ nodup_nil) inside sizes
  obtain ⟨exhausted, emptied, -⟩ := exhausts fun id start => start
  have distinct := ready'.nodup_flatten filtered
  have all : pages.flatten = taken := by
    rw [filtered, filter_eq_self]
    exact fun nbr member => decide_eq_true (ready'.paging.taken nbr member).2.1
  refine ⟨pages, p', fun fuel enough => ?_, bounds, distinct, exhausted, fun many => ?_,
    fun short => ?_⟩
  · rw [pagedSearch, began, pure_bind, ran fuel enough]
  · by_contra none
    have nonempty : ∀ page ∈ pages, 1 ≤ page.length := fun page member =>
      length_pos_iff.mpr fun empty => none (empty ▸ member)
    have long : pages.length ≤ pages.flatten.length := by
      simpa using card_nsmul_le_sum (pages.map List.length) 1 (by simpa using nonempty)
    have sub : (pages.flatten.map (·.id)).toFinset ⊆ G.nodes := by
      intro id member
      rw [all, mem_toFinset] at member
      obtain ⟨nbr, gone, rfl⟩ := mem_map.mp member
      exact ready'.paging.inside (ready'.paging.taken nbr gone).1
    have card := Finset.card_le_card sub
    rw [toFinset_card_of_nodup distinct, length_map] at card
    have count := bounds.length_eq
    omega
  · rw [all]
    exact ready'.paging.complete_iff (emptied short)

open Search (diamond diamondDistance)

/-- From node 0 of the diamond, page by page. -/
theorem pagedSearch_pages_diamond :
    ∃ pages p, (pagedSearch (.ofGraph diamond diamondDistance [0]) () 2 >>=
        PagedSearch.nextPages (.ofGraph diamond diamondDistance [0]) 25 [2, 1, 2]) = pure (pages, p) ∧
      pages.map (List.map (·.id)) = [[3, 2], [1], []] ∧
      PagesCorrect diamond diamondDistance [0] [2, 1, 2] pages := by
  obtain ⟨pages, p, ran, correct⟩ := pagedSearch_pages
    (SearchAccessor.ofGraph_lawful diamond diamondDistance [0]) (by decide) ()
    (by decide : ∀ k ∈ [2, 1, 2], 1 ≤ k ∧ k ≤ 2)
  have ran := ran 25 (by decide)
  have computed : ∃ pages' p', (pagedSearch (.ofGraph diamond diamondDistance [0]) () 2 >>=
        PagedSearch.nextPages (.ofGraph diamond diamondDistance [0]) 25 [2, 1, 2]) =
          pure (pages', p') ∧ pages'.map (List.map (·.id)) = [[3, 2], [1], []] := ⟨_, _, rfl, rfl⟩
  obtain ⟨pages', p', ran', ids⟩ := computed
  cases Except.ok.inj (Option.some.inj (ran.symm.trans ran'))
  exact ⟨pages, p, ran, ids, correct⟩

/-- Node 1 of the diamond at a distance that is not a number. -/
def brokenDistance (id : ℕ) : F32 := if id = 1 then ⟨0x7fc00000⟩ else diamondDistance id

/-- Node 1 can be reached from node 0, and no page has it. -/
theorem nan_node_not_returned :
    diamond.Reachable [0] 1 ∧ ∃ pages p, (pagedSearch (.ofGraph diamond brokenDistance [0]) () 2 >>=
        PagedSearch.nextPages (.ofGraph diamond brokenDistance [0]) 25 [2, 2]) = pure (pages, p) ∧
      pages.map (map (·.id)) = [[3, 2], []] :=
  ⟨⟨0, mem_cons_self, .single (by decide)⟩, _, _, rfl, rfl⟩

/-- The seeds are on no page: they are returned only if there are none. -/
theorem init_ids_returned_iff (lawful : A.Lawful G distance starts) (distinct : starts.Nodup)
    (inside : ∀ id ∈ starts, id ∈ G.nodes) {initIds : List I}
    (inside' : ∀ id ∈ initIds, id ∈ G.nodes) (a : σ) {l : ℕ} {ks : List ℕ}
    (sizes : ∀ k ∈ ks, 1 ≤ k ∧ k ≤ l) :
    ∃ pages p, (∀ fuel, (G.nodes.card + 1) ^ 2 ≤ fuel →
        (pagedSearchWithInitIds A a l (some initIds) >>= PagedSearch.nextPages A fuel ks) =
          pure (pages, p)) ∧
      ((∀ id ∈ initIds, ∃ page ∈ pages, ∃ nbr ∈ page, nbr.id = id) ↔ initIds = []) := by
  obtain ⟨p, q, began, ready⟩ := pagedSearchWithInitIds_eq lawful a l (some initIds) inside'
  obtain ⟨taken, pages, p', q', ran, ready', filtered, -⟩ :=
    ready.nextPages lawful (fun _ => distinct) inside sizes
  refine ⟨pages, p', fun fuel enough => ?_, fun returned => ?_, fun none => ?_⟩
  · rw [began, pure_bind, ran fuel enough]
  · rw [eq_nil_iff_forall_not_mem]
    intro id seed
    obtain ⟨page, member, nbr, found, rfl⟩ := returned id seed
    have gone : nbr ∈ pages.flatten := mem_flatten_of_mem member found
    rw [filtered] at gone
    exact (ready'.paging.taken nbr (mem_filter.mp gone).1).2.1 seed
  · rw [none]
    exact forall_mem_nil _

/-- Nodes 1 and 3 of the diamond are seeds, and a page is to have both. -/
theorem init_ids_returned_iff_diamond :
    ∃ pages p, (pagedSearchWithInitIds (.ofGraph diamond diamondDistance [0]) () 2 (some [1, 3]) >>=
        PagedSearch.nextPages (.ofGraph diamond diamondDistance [0]) 25 [2]) = pure (pages, p) ∧
      ¬ ∀ id ∈ [1, 3], ∃ page ∈ pages, ∃ nbr ∈ page, nbr.id = id := by
  obtain ⟨pages, p, ran, returned_iff⟩ := init_ids_returned_iff
    (SearchAccessor.ofGraph_lawful diamond diamondDistance [0]) (by decide) (by decide)
    (by decide : ∀ id ∈ [1, 3], id ∈ diamond.nodes) () (by decide : ∀ k ∈ [2], 1 ≤ k ∧ k ≤ 2)
  exact ⟨pages, p, ran 25 (by decide), fun returned => by cases returned_iff.mp returned⟩

/-- A search from node 1 of the diamond: nodes 3 and 0 are found, then 2 from 0; 1 and the start point
are on no page. -/
theorem init_id_not_returned :
    ∃ pages p, (pagedSearchWithInitIds (.ofGraph diamond diamondDistance [0]) () 2 (some [1]) >>=
        PagedSearch.nextPages (.ofGraph diamond diamondDistance [0]) 25 [2, 2]) = pure (pages, p) ∧
      pages.map (map (·.id)) = [[3, 2], []] :=
  ⟨_, _, rfl, rfl⟩

end PagedSearch

end DiskAnn
