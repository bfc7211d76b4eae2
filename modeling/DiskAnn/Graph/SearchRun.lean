import DiskAnn.Graph.Search
import DiskAnn.Neighbor.QueueBeam

/-! # What a graph search finds

A search over a finite graph, through an accessor that reports every neighbor which passes the
predicate exactly once and never ends early. One hop takes a beam of entries out of the queue as
visited, and inserts what the accessor reports of their neighbors. Every hop discovers a new node or
moves the cursor on, so that the main loop ends; no node is expanded twice, and the queue holds the
closest of the discovered nodes, all of them expanded.
-/

namespace DiskAnn

open List SlotQueue

structure FiniteGraph (I : Type) where
  nodes : Finset I
  neighbors : I → List I
  closed : ∀ id ∈ nodes, ∀ neighbor ∈ neighbors id, neighbor ∈ nodes

/-- There is a path to the node from one of the roots. -/
def FiniteGraph.Reachable {I : Type} (G : FiniteGraph I) (roots : List I) (id : I) : Prop :=
  ∃ root ∈ roots, Relation.ReflTransGen (fun a b => b ∈ G.neighbors a) root id

/-- What is reported of the neighbors of `ids`: those that pass the predicate, each once. -/
structure Reports {I : Type} (G : FiniteGraph I) (distance : I → F32) (ids : List I)
    (visited : Finset I) (reported : List (Neighbor I)) : Prop where
  nodup : (reported.map (·.id)).Nodup
  mem_iff : ∀ nbr, nbr ∈ reported ↔ nbr.distance = distance nbr.id ∧ nbr.id ∉ visited ∧
    ∃ id ∈ ids, nbr.id ∈ G.neighbors id

/-- The accessor stands for the graph, the distances and the start points. -/
structure SearchAccessor.Lawful {I σ E : Type} [DecidableEq I] (A : SearchAccessor I σ E)
    (G : FiniteGraph I) (distance : I → F32) (starts : List I) : Prop where
  starting_points : ∀ a, A.startingPoints a = .ok starts
  start_point_distances : ∀ a, ∃ reported a', A.startPointDistances a = .ok (reported, a') ∧
    reported.Perm (starts.map fun id => ⟨id, distance id⟩)
  expand_beam : ∀ a ids visited, ∃ reported a',
    A.expandBeam a ids visited = .ok (reported, visited ∪ (reported.map (·.id)).toFinset, a') ∧
      Reports G distance ids visited reported
  terminate_early : ∀ a, (A.terminateEarly a).1 = false

/-- The accessor stands for the graph, but may end a search early. -/
structure SearchAccessor.Honours {I σ E : Type} [DecidableEq I] (A : SearchAccessor I σ E)
    (G : FiniteGraph I) (distance : I → F32) (starts : List I) : Prop where
  starting_points : ∀ a, A.startingPoints a = .ok starts
  start_point_distances : ∀ a, ∃ reported a', A.startPointDistances a = .ok (reported, a') ∧
    reported.Perm (starts.map fun id => ⟨id, distance id⟩)
  expand_beam : ∀ a ids visited, ∃ reported a',
    A.expandBeam a ids visited = .ok (reported, visited ∪ (reported.map (·.id)).toFinset, a') ∧
      Reports G distance ids visited reported

/-- The accessor, but never ending a search early. -/
def SearchAccessor.patient {I σ E : Type} (A : SearchAccessor I σ E) : SearchAccessor I σ E :=
  { A with terminateEarly := fun a => (false, a) }

theorem SearchAccessor.Honours.patient {I σ E : Type} [DecidableEq I] {A : SearchAccessor I σ E}
    {G : FiniteGraph I} {distance : I → F32} {starts : List I}
    (honours : A.Honours G distance starts) : A.patient.Lawful G distance starts where
  starting_points := honours.starting_points
  start_point_distances := honours.start_point_distances
  expand_beam := honours.expand_beam
  terminate_early _ := rfl

theorem SearchAccessor.Lawful.honours {I σ E : Type} [DecidableEq I] {A : SearchAccessor I σ E}
    {G : FiniteGraph I} {distance : I → F32} {starts : List I}
    (lawful : A.Lawful G distance starts) : A.Honours G distance starts :=
  ⟨lawful.starting_points, lawful.start_point_distances, lawful.expand_beam⟩

namespace SearchAccessor

variable {I : Type} [DecidableEq I]

/-- The loop of `expand_beam` of the test provider, over the adjacency lists of the beam. -/
def expandFrom (distance : I → F32) : List I → Finset I → List (Neighbor I) × Finset I
  | [], visited => ([], visited)
  | id :: ids, visited =>
      let (new, visited) := NotInMut.evalMut visited id
      let (reported, visited) := expandFrom distance ids visited
      (if new then ⟨id, distance id⟩ :: reported else reported, visited)

/-- The accessor of the test provider, when no access fails. -/
def ofGraph (G : FiniteGraph I) (distance : I → F32) (starts : List I) :
    SearchAccessor I Unit Empty where
  startingPoints _ := .ok starts
  startPointDistances _ := .ok (starts.map fun id => ⟨id, distance id⟩, ())
  expandBeam _ ids visited :=
    let (reported, visited) := expandFrom distance (ids.flatMap G.neighbors) visited
    .ok (reported, visited, ())
  terminateEarly _ := (false, ())

theorem expandFrom_visited (distance : I → F32) (ids : List I) (visited : Finset I) :
    (expandFrom distance ids visited).2 =
      visited ∪ ((expandFrom distance ids visited).1.map (·.id)).toFinset := by
  induction ids generalizing visited with
  | nil => simp [expandFrom]
  | cons id ids ih =>
    simp only [expandFrom, NotInMut.evalMut, ih (insert id visited)]
    by_cases known : id ∈ visited
    · simp [known]
    · simp [known]

theorem expandFrom_reports (distance : I → F32) (ids : List I) (visited : Finset I) :
    ((expandFrom distance ids visited).1.map (·.id)).Nodup ∧
      ∀ nbr, nbr ∈ (expandFrom distance ids visited).1 ↔
        nbr.distance = distance nbr.id ∧ nbr.id ∉ visited ∧ nbr.id ∈ ids := by
  induction ids generalizing visited with
  | nil => simp [expandFrom]
  | cons id ids ih =>
    obtain ⟨nodup, mem_iff⟩ := ih (insert id visited)
    simp only [expandFrom, NotInMut.evalMut]
    by_cases known : id ∈ visited
    · simp only [known]
      refine ⟨nodup, fun nbr => ?_⟩
      grind
    · simp only [known]
      refine ⟨nodup_cons.mpr ⟨fun again => ?_, nodup⟩, fun nbr => ?_⟩
      · obtain ⟨nbr, mem, same⟩ := mem_map.mp again
        exact ((mem_iff nbr).mp mem).2.1 (same ▸ Finset.mem_insert_self ..)
      · cases nbr
        grind

theorem ofGraph_lawful (G : FiniteGraph I) (distance : I → F32) (starts : List I) :
    (ofGraph G distance starts).Lawful G distance starts where
  starting_points _ := rfl
  start_point_distances _ := ⟨_, _, rfl, .refl _⟩
  expand_beam a ids visited := by
    obtain ⟨nodup, mem_iff⟩ := expandFrom_reports distance (ids.flatMap G.neighbors) visited
    refine ⟨(expandFrom distance (ids.flatMap G.neighbors) visited).1, (), ?_, nodup, fun nbr => ?_⟩
    · rw [← expandFrom_visited]
      rfl
    · rw [mem_iff, mem_flatMap]
  terminate_early _ := rfl

end SearchAccessor

namespace Search

variable {I σ E : Type} [DecidableEq I] {A : SearchAccessor I σ E} {G : FiniteGraph I}
  {distance : I → F32} {starts : List I} {s : Search I σ} {q : SlotQueue I} {beamWidth l : ℕ}

theorem liftM_some {ε α : Type} (a : α) : (liftM (some a) : ExceptT ε Option α) = pure a := rfl

theorem liftM_ok {ε α : Type} (a : α) :
    (liftM (.ok a : Except ε α) : ExceptT ε Option α) = pure a := rfl

omit [DecidableEq I] in
theorem ids_of_starts {reported : List (Neighbor I)}
    (reports : reported.Perm (starts.map fun id => ⟨id, distance id⟩)) :
    (reported.map (·.id)).Perm starts := by
  have mapped := reports.map (·.id)
  rwa [map_map, show (Neighbor.id ∘ fun id => ⟨id, distance id⟩) = id from rfl,
    map_id] at mapped

omit [DecidableEq I] in
theorem distance_of_starts {reported : List (Neighbor I)}
    (reports : reported.Perm (starts.map fun id => ⟨id, distance id⟩)) :
    ∀ nbr ∈ reported, nbr.distance = distance nbr.id := by
  intro nbr mem
  obtain ⟨id, -, rfl⟩ := mem_map.mp (reports.mem_iff.mp mem)
  rfl

/-- A fresh search begins by inserting the start points. -/
theorem enterStartPoints_eq (lawful : A.Lawful G distance starts)
    (stored : s.scratch.best = q.toQueue) (room : q.HasRoom) (fresh : s.scratch.visited = ∅) :
    ∃ reported s', reported.Perm (starts.map fun id => ⟨id, distance id⟩) ∧
      enterStartPoints A s = pure s' ∧ s'.scratch.best = (q.insertAll reported).toQueue ∧
      s'.scratch.visited = ∅ ∪ (reported.map (·.id)).toFinset ∧ s'.record = s.record := by
  obtain ⟨reported, a', answered, reports⟩ := lawful.start_point_distances s.accessor
  have inserted := room.toQueue_insertAll reported
  rw [← stored] at inserted
  refine ⟨reported, { s with
      accessor := a'
      scratch := { s.scratch with
        best := (q.insertAll reported).toQueue
        visited := ∅ ∪ (reported.map (·.id)).toFinset
        cmps := s.scratch.cmps + BitVec.ofNat 32 reported.length } },
    reports, ?_, rfl, rfl, rfl⟩
  simp only [enterStartPoints, fresh, if_true, answered, liftM_ok, pure_bind, inserted, liftM_some]

theorem enterStartPoints_of_visited (entered : s.scratch.visited ≠ ∅) :
    enterStartPoints A s = pure s := if_neg entered

/-! ## One hop -/

omit [DecidableEq I] in
theorem fillBeam_eq (stored : s.scratch.best = q.toQueue) (left : ℕ) :
    ∃ beam t, q.Beam beam t ∧ (0 < left → q.toQueue.hasNotvisitedNode = true → beam ≠ []) ∧
      fillBeam left s = some { s with
        scratch := { s.scratch with
          best := t.toQueue
          beamNodes := s.scratch.beamNodes ++ beam.map (·.id) }
        record := s.record ++ beam.map fun nbr => ⟨nbr, s.scratch.hops, s.scratch.cmps⟩ } := by
  induction left generalizing s q with
  | zero =>
    refine ⟨[], q, .done q, fun pos => absurd pos (lt_irrefl 0), ?_⟩
    simp [fillBeam, ← stored]
  | succ left ih =>
    unfold fillBeam
    rw [stored, q.toQueue_closestNotvisited]
    cases answer : q.closestNotvisited.1 with
    | none =>
      refine ⟨[], q, .done q, fun _ has => ?_, ?_⟩
      · rw [← q.closestNotvisited_isSome_iff, answer] at has
        cases has
      · simp [closestNotvisited_of_none answer]
    | some nbr =>
      obtain ⟨beam, t, walked, -, filled⟩ := ih (s := { s with
        scratch := { s.scratch with
          best := q.closestNotvisited.2.toQueue
          beamNodes := s.scratch.beamNodes ++ [nbr.id] }
        record := s.record ++ [⟨nbr, s.scratch.hops, s.scratch.cmps⟩] }) rfl
      refine ⟨nbr :: beam, t, .visit answer walked, fun _ _ => cons_ne_nil _ _, ?_⟩
      simpa using filled

/-- A hop visits a beam, expands it and inserts what is new. -/
theorem hop_eq (lawful : A.Lawful G distance starts) (stored : s.scratch.best = q.toQueue)
    (room : q.HasRoom) (beamWidth : ℕ) :
    ∃ beam t reported s', q.Beam beam t ∧
      (0 < beamWidth → q.toQueue.hasNotvisitedNode = true → beam ≠ []) ∧
      Reports G distance (beam.map (·.id)) s.scratch.visited reported ∧
      hop A beamWidth s = pure s' ∧ s'.scratch.best = (t.insertAll reported).toQueue ∧
      s'.scratch.visited = s.scratch.visited ∪ (reported.map (·.id)).toFinset ∧
      s'.record.map (·.neighbor) = s.record.map (·.neighbor) ++ beam := by
  obtain ⟨beam, t, walked, nonempty, filled⟩ :=
    fillBeam_eq (s := { s with scratch := { s.scratch with beamNodes := [] } }) stored beamWidth
  obtain ⟨reported, a', expanded, reports⟩ :=
    lawful.expand_beam s.accessor (beam.map (·.id)) s.scratch.visited
  have inserted := (walked.hasRoom room).toQueue_insertAll reported
  refine ⟨beam, t, reported, {
      accessor := a'
      scratch := {
        best := (t.insertAll reported).toQueue
        visited := s.scratch.visited ∪ (reported.map (·.id)).toFinset
        beamNodes := beam.map (·.id)
        cmps := s.scratch.cmps + BitVec.ofNat 32 reported.length
        hops := s.scratch.hops + BitVec.ofNat 32 (beam.map (·.id)).length }
      record := s.record ++ beam.map fun nbr => ⟨nbr, s.scratch.hops, s.scratch.cmps⟩ },
    walked, nonempty, reports, ?_, rfl, rfl, ?_⟩
  · simp only [hop, filled, liftM_some, pure_bind, nil_append, expanded, liftM_ok, inserted]
  · rw [map_append, map_map]
    exact congrArg _ (map_id beam)

/-! ## The main loop -/

omit [DecidableEq I] in
/-- The loop rule: `P` is kept and `measure` falls with every hop. Only an accessor that ends the search
early leaves entries to visit. -/
theorem loop_ends {P : Search I σ → Prop} {measure : Search I σ → ℕ}
    (step : ∀ s a, P s → s.scratch.best.hasNotvisitedNode = true →
      ∃ s', hop A beamWidth { s with accessor := a } = pure s' ∧ P s' ∧ measure s' < measure s)
    (stops : ∀ s a, P s → (A.terminateEarly s.accessor).1 = true → P { s with accessor := a })
    (holds : P s) :
    ∃ s', (∀ fuel, measure s < fuel → loop A beamWidth fuel s = pure s') ∧ P s' ∧
      ((∀ a, (A.terminateEarly a).1 = false) → s'.scratch.best.hasNotvisitedNode = false) := by
  induction bound : measure s using Nat.strong_induction_on generalizing s with
  | _ n ih =>
    cases has : s.scratch.best.hasNotvisitedNode with
    | false =>
      refine ⟨s, fun fuel enough => ?_, holds, fun _ => has⟩
      obtain ⟨fuel, rfl⟩ := Nat.exists_eq_add_one_of_ne_zero (Nat.ne_zero_of_lt enough)
      simp [loop, has]
    | true =>
      cases early : (A.terminateEarly s.accessor).1 with
      | true =>
        refine ⟨_, fun fuel enough => ?_, stops s (A.terminateEarly s.accessor).2 holds early, fun never => ?_⟩
        · obtain ⟨fuel, rfl⟩ := Nat.exists_eq_add_one_of_ne_zero (Nat.ne_zero_of_lt enough)
          simp [loop, has, early]
        · simp [never] at early
      | false =>
        obtain ⟨s₁, hopped, holds₁, less⟩ := step s (A.terminateEarly s.accessor).2 holds has
        obtain ⟨s', looped, holds', done⟩ := ih (measure s₁) (bound ▸ less) holds₁ rfl
        refine ⟨s', fun fuel enough => ?_, holds', done⟩
        obtain ⟨fuel, rfl⟩ := Nat.exists_eq_add_one_of_ne_zero (Nat.ne_zero_of_lt enough)
        simp [loop, has, early, hopped, looped fuel (by omega)]

/-- How far the search can still go: nodes to discover, then entries to visit. -/
def remaining (G : FiniteGraph I) (s : Search I σ) : ℕ :=
  (G.nodes.card - s.scratch.visited.card) * (G.nodes.card + 1) +
    (s.scratch.best.size - s.scratch.best.cursor)

/-- The entries of the queue are discovered nodes at their distances. -/
structure Explored (G : FiniteGraph I) (distance : I → F32) (q : SlotQueue I)
    (visited : Finset I) : Prop where
  room : q.HasRoom
  behind : q.Behind
  distinct : q.Distinct
  inside : visited ⊆ G.nodes
  held : ∀ nbr ∈ q.neighbors, nbr.id ∈ visited ∧ nbr.distance = distance nbr.id

namespace Explored

variable {visited : Finset I} {t : SlotQueue I} {beam reported : List (Neighbor I)}

omit [DecidableEq I] in
theorem ids_eq (q : SlotQueue I) : q.slots.map Slot.id = q.neighbors.map (·.id) := by
  rw [neighbors, map_map]
  rfl

theorem length_le (explored : Explored G distance q visited) :
    q.slots.length ≤ visited.card := by
  have sub : (q.slots.map Slot.id).toFinset ⊆ visited := by
    intro id mem
    rw [mem_toFinset, ids_eq] at mem
    obtain ⟨nbr, held, rfl⟩ := mem_map.mp mem
    exact (explored.held nbr held).1
  have card := Finset.card_le_card sub
  rwa [toFinset_card_of_nodup explored.distinct, length_map] at card

omit [DecidableEq I] in
theorem reported_fresh (reports : Reports G distance (beam.map (·.id)) visited reported) :
    ∀ nbr ∈ reported, nbr.id ∉ visited :=
  fun nbr mem => ((reports.mem_iff nbr).mp mem).2.1

omit [DecidableEq I] in
theorem mem_neighbors_insertAll {nbr : Neighbor I} (walked : q.Beam beam t)
    (mem : nbr ∈ (t.insertAll reported).neighbors) : nbr ∈ reported ∨ nbr ∈ q.neighbors := by
  obtain ⟨slot, held, rfl⟩ := mem_map.mp mem
  rcases mem_insertAll_slots held with ⟨nbr, new, rfl⟩ | old
  · exact .inl new
  · rw [← walked.neighbors]
    exact .inr (mem_map_of_mem old)

omit [DecidableEq I] in
/-- A beam is visited, and what is new is inserted. -/
theorem discover (explored : Explored G distance q visited) (walked : q.Beam beam t)
    {visited' : Finset I} (grows : visited ⊆ visited') (inside : visited' ⊆ G.nodes)
    (nodup : (reported.map (·.id)).Nodup) (fresh : ∀ nbr ∈ reported, nbr.id ∉ visited)
    (known : ∀ nbr ∈ reported, nbr.id ∈ visited' ∧ nbr.distance = distance nbr.id) :
    Explored G distance (t.insertAll reported) visited' := by
  have ids : (reported.map (·.id) ++ t.slots.map Slot.id).Nodup := by
    rw [walked.ids]
    refine nodup.append explored.distinct fun id new old => ?_
    obtain ⟨nbr, mem, rfl⟩ := mem_map.mp new
    rw [ids_eq] at old
    obtain ⟨other, held, same⟩ := mem_map.mp old
    exact fresh nbr mem (same ▸ (explored.held other held).1)
  refine ⟨(walked.hasRoom explored.room).insertAll _, (walked.behind explored.behind).insertAll _,
    .insertAll ids, inside, fun nbr mem => ?_⟩
  rcases mem_neighbors_insertAll walked mem with new | old
  · exact known nbr new
  · exact ⟨grows (explored.held nbr old).1, (explored.held nbr old).2⟩

theorem hop (explored : Explored G distance q visited) (walked : q.Beam beam t)
    (reports : Reports G distance (beam.map (·.id)) visited reported) :
    Explored G distance (t.insertAll reported) (visited ∪ (reported.map (·.id)).toFinset) := by
  refine explored.discover walked Finset.subset_union_left ?_ reports.nodup
    (reported_fresh reports) fun nbr new => ⟨?_, ((reports.mem_iff nbr).mp new).1⟩
  · refine Finset.union_subset explored.inside fun id mem => ?_
    obtain ⟨nbr, new, rfl⟩ := mem_map.mp (mem_toFinset.mp mem)
    obtain ⟨-, -, other, expanded, edge⟩ := (reports.mem_iff nbr).mp new
    obtain ⟨source, visits, rfl⟩ := mem_map.mp expanded
    exact G.closed _ (explored.inside (explored.held _ (walked.subset _ visits)).1) _ edge
  · exact Finset.mem_union_right _ (mem_toFinset.mpr (mem_map_of_mem new))

/-- The start points in an empty queue. -/
theorem start {c : ℕ} (pos : 1 ≤ c) (distinct : starts.Nodup)
    (inside : ∀ id ∈ starts, id ∈ G.nodes)
    (reports : reported.Perm (starts.map fun id => ⟨id, distance id⟩)) :
    Explored G distance ((empty c false).insertAll reported)
      (∅ ∪ (reported.map (·.id)).toFinset) := by
  have ids := ids_of_starts reports
  have settled : (empty c false : SlotQueue I).Settled := rfl
  have room : (empty c false : SlotQueue I).HasRoom := .inr pos
  have held : ∀ nbr ∈ ((empty c false).insertAll reported).neighbors, nbr ∈ reported := by
    intro nbr mem
    rcases mem_neighbors_insertAll (.done _) mem with new | old
    · exact new
    · cases old
  refine ⟨room.insertAll _, (settled.insertAll _).behind,
    .insertAll ((append_nil _).symm ▸ ids.nodup_iff.mpr distinct), fun id mem => ?_,
    fun nbr mem => ⟨?_, distance_of_starts reports nbr (held nbr mem)⟩⟩
  · rw [Finset.empty_union, mem_toFinset, ids.mem_iff] at mem
    exact inside id mem
  · rw [Finset.empty_union, mem_toFinset]
    exact mem_map_of_mem (held nbr mem)

theorem card_visited (reports : Reports G distance (beam.map (·.id)) visited reported) :
    (visited ∪ (reported.map (·.id)).toFinset).card = visited.card + reported.length := by
  rw [Finset.card_union_of_disjoint, toFinset_card_of_nodup reports.nodup, length_map]
  rw [Finset.disjoint_right]
  intro id mem
  obtain ⟨nbr, new, rfl⟩ := mem_map.mp (mem_toFinset.mp mem)
  exact reported_fresh reports nbr new

theorem remaining_lt_square {s : Search I σ} (explored : Explored G distance q s.scratch.visited)
    (stored : s.scratch.best = q.toQueue) : remaining G s < (G.nodes.card + 1) ^ 2 := by
  have length := explored.length_le
  have inside := Finset.card_le_card explored.inside
  have scaled := Nat.mul_le_mul_right (G.nodes.card + 1)
    (Nat.sub_le G.nodes.card s.scratch.visited.card)
  have square : (G.nodes.card + 1) ^ 2 = G.nodes.card * (G.nodes.card + 1) + G.nodes.card + 1 := by ring
  unfold remaining
  rw [stored]
  change _ + (q.slots.length - q.cursor) < _
  omega

/-- A hop discovers a node, or leaves the queue with its cursor further on. -/
theorem remaining_lt_of_le {s s' : Search I σ} (walked : q.Beam beam t) (nonempty : beam ≠ [])
    (explored' : Explored G distance (t.insertAll reported) s'.scratch.visited)
    (card : s.scratch.visited.card + reported.length ≤ s'.scratch.visited.card)
    (stored : s.scratch.best = q.toQueue)
    (stored' : s'.scratch.best = (t.insertAll reported).toQueue) :
    remaining G s' < remaining G s := by
  have length := explored'.length_le
  have inside := Finset.card_le_card explored'.inside
  unfold remaining
  rw [stored, stored']
  change _ + ((t.insertAll reported).slots.length - (t.insertAll reported).cursor) <
    _ + (q.slots.length - q.cursor)
  rcases eq_or_ne reported [] with rfl | new
  · have moved := walked.cursor_le
    have bound := t.cursor_le
    have same := walked.length
    have pos := length_pos_iff.mpr nonempty
    have less : G.nodes.card - s'.scratch.visited.card ≤ G.nodes.card - s.scratch.visited.card := by
      omega
    have scaled := Nat.mul_le_mul_right (G.nodes.card + 1) less
    change _ + (t.slots.length - t.cursor) < _
    omega
  · have pos := length_pos_iff.mpr new
    have less : G.nodes.card - s'.scratch.visited.card + 1 ≤
        G.nodes.card - s.scratch.visited.card := by omega
    have scaled := Nat.mul_le_mul_right (G.nodes.card + 1) less
    rw [Nat.succ_mul] at scaled
    omega

theorem remaining_lt {s s' : Search I σ} (explored : Explored G distance q s.scratch.visited)
    (walked : q.Beam beam t) (nonempty : beam ≠ [])
    (reports : Reports G distance (beam.map (·.id)) s.scratch.visited reported)
    (stored : s.scratch.best = q.toQueue)
    (stored' : s'.scratch.best = (t.insertAll reported).toQueue)
    (visited' : s'.scratch.visited = s.scratch.visited ∪ (reported.map (·.id)).toFinset) :
    remaining G s' < remaining G s :=
  remaining_lt_of_le walked nonempty (visited' ▸ explored.hop walked reports)
    (visited' ▸ (card_visited reports).ge) stored stored'

end Explored

theorem Explored.step (honours : A.Honours G distance starts) (wide : 1 ≤ beamWidth)
    (explored : Explored G distance q s.scratch.visited) (stored : s.scratch.best = q.toQueue)
    (has : s.scratch.best.hasNotvisitedNode = true) (a : σ) :
    ∃ s', Search.hop A beamWidth { s with accessor := a } = pure s' ∧
      (∃ q' : SlotQueue I, s'.scratch.best = q'.toQueue ∧
        Explored G distance q' s'.scratch.visited) ∧ remaining G s' < remaining G s := by
  obtain ⟨beam, t, reported, s', walked, nonempty, reports, hopped, stored', visited', -⟩ :=
    hop_eq (s := { s with accessor := a }) honours.patient stored explored.room beamWidth
  exact ⟨s', hopped, ⟨t.insertAll reported, stored', visited' ▸ explored.hop walked reports⟩,
    explored.remaining_lt walked (nonempty wide (stored ▸ has)) reports stored stored' visited'⟩

/-- A search from the start points ends, and its queue holds discovered nodes, each once. -/
theorem searchInternal_explored (honours : A.Honours G distance starts) (distinct : starts.Nodup)
    (inside : ∀ id ∈ starts, id ∈ G.nodes) (pos : 1 ≤ l) (wide : 1 ≤ beamWidth)
    (pooled : Option (SearchScratch I)) (a : σ) :
    ∃ bound s, ∃ q : SlotQueue I, s.scratch.best = q.toQueue ∧
      Explored G distance q s.scratch.visited ∧ ∀ fuel, bound < fuel →
        searchInternal A fuel (some beamWidth) ⟨a, .searchScratch pooled l starts.length, []⟩ =
          pure (⟨s.scratch.cmps, s.scratch.hops, false⟩, s) := by
  have pos' : 1 ≤ l + starts.length := by omega
  rw [SearchScratch.searchScratch_eq]
  obtain ⟨reported, s₀, reports, entered, stored₀, visited₀, -⟩ := enterStartPoints_eq
    (s := ⟨a, .new (.fixed (l + starts.length)), []⟩) (q := .empty (l + starts.length) false)
    honours.patient rfl (.inr pos') rfl
  obtain ⟨s, looped, ⟨q, stored, explored⟩, -⟩ := loop_ends
    (P := fun s => ∃ q : SlotQueue I, s.scratch.best = q.toQueue ∧
      Explored G distance q s.scratch.visited)
    (fun s a ⟨q, stored, explored⟩ has => explored.step honours wide stored has a)
    (fun s a held _ => held)
    ⟨_, stored₀, visited₀ ▸ .start pos' distinct inside reports⟩
  refine ⟨remaining G s₀, s, q, stored, explored, fun fuel enough => ?_⟩
  rw [searchInternal, show enterStartPoints A _ = _ from entered]
  change (do let s ← loop A beamWidth fuel s₀; pure _) = _
  rw [looped fuel enough, pure_bind]

/-! ## A search with a fixed queue -/

/-- The state of a search from the start points with a queue of capacity `c`: the nodes in `expanded`
have been expanded, each once, and the queue holds the first `c` of all discovered nodes. -/
structure Searching (G : FiniteGraph I) (distance : I → F32) (starts : List I) (c : ℕ)
    (q : SlotQueue I) (visited : Finset I) (expanded : List I) : Prop
    extends Explored G distance q visited where
  settled : q.Settled
  fixed : q.Fixed c
  once : expanded.Nodup
  seen : ∀ id ∈ expanded, q.Seen id ∧ id ∈ visited
  flagged : ∀ slot ∈ q.slots, slot.visited = true → slot.id ∈ expanded
  discovered : ∀ id, id ∈ visited ↔ id ∈ starts ∨ ∃ other ∈ expanded, id ∈ G.neighbors other
  closest : ∃ full : List (Slot I), full.Pairwise Slot.le ∧ q.slots = full.take c ∧
    ((full.map Slot.neighbor).map (·.id)).Nodup ∧
    ∀ nbr, nbr ∈ full.map Slot.neighbor ↔ nbr.id ∈ visited ∧ nbr.distance = distance nbr.id

namespace Searching

variable {c : ℕ} {visited : Finset I} {expanded : List I} {t : SlotQueue I}
  {beam reported : List (Neighbor I)} (searching : Searching G distance starts c q visited expanded)
include searching

theorem seen_hop (walked : q.Beam beam t) (reports : Reports G distance (beam.map (·.id)) visited reported) :
    ∀ id ∈ expanded ++ beam.map (·.id),
      (t.insertAll reported).Seen id ∧ id ∈ visited ∪ (reported.map (·.id)).toFinset := by
  intro id mem
  have before : t.Seen id ∧ id ∈ visited := by
    rcases mem_append.mp mem with old | new
    · exact ⟨walked.seen (searching.seen id old).1, (searching.seen id old).2⟩
    · obtain ⟨nbr, visits, rfl⟩ := mem_map.mp new
      exact ⟨walked.seen_of_mem searching.distinct nbr visits,
        (searching.held nbr (walked.subset nbr visits)).1⟩
  refine ⟨fun slot held same => ?_, Finset.mem_union_left _ before.2⟩
  rcases mem_insertAll_slots held with ⟨nbr, new, rfl⟩ | old
  · have known : nbr.id ∈ visited := by
      rw [show nbr.id = id from same]
      exact before.2
    exact absurd known (Explored.reported_fresh reports nbr new)
  · exact before.1 slot old same

theorem once_hop (walked : q.Beam beam t) : (expanded ++ beam.map (·.id)).Nodup := by
  refine List.Nodup.append searching.once (walked.nodup searching.settled searching.distinct) ?_
  intro id old new
  obtain ⟨nbr, visits, rfl⟩ := mem_map.mp new
  exact walked.not_seen_of_mem searching.settled nbr visits (searching.seen _ old).1

omit [DecidableEq I] in
theorem flagged_hop (walked : q.Beam beam t) : ∀ slot ∈ (t.insertAll reported).slots, slot.visited = true →
      slot.id ∈ expanded ++ beam.map (·.id) := by
  intro slot mem flag
  rw [mem_append]
  rcases mem_insertAll_slots mem with ⟨nbr, -, rfl⟩ | held
  · cases flag
  · rcases walked.visited_cases held flag with old | visits
    · exact .inl (searching.flagged slot old flag)
    · exact .inr (mem_map_of_mem visits)

theorem discovered_hop (reports : Reports G distance (beam.map (·.id)) visited reported) (id : I) :
    id ∈ visited ∪ (reported.map (·.id)).toFinset ↔
      id ∈ starts ∨ ∃ other ∈ expanded ++ beam.map (·.id), id ∈ G.neighbors other := by
  rw [Finset.mem_union, mem_toFinset, searching.discovered]
  constructor
  · rintro ((start | ⟨other, old, edge⟩) | new)
    · exact .inl start
    · exact .inr ⟨other, mem_append_left _ old, edge⟩
    · obtain ⟨nbr, mem, rfl⟩ := mem_map.mp new
      obtain ⟨-, -, other, visits, edge⟩ := (reports.mem_iff nbr).mp mem
      exact .inr ⟨other, mem_append_right _ visits, edge⟩
  · rintro (start | ⟨other, mem, edge⟩)
    · exact .inl (.inl start)
    · rcases mem_append.mp mem with old | visits
      · exact .inl (.inr ⟨other, old, edge⟩)
      · by_cases known : id ∈ visited
        · exact .inl ((searching.discovered id).mp known)
        · exact .inr (mem_map.mpr ⟨⟨id, distance id⟩,
            (reports.mem_iff _).mpr ⟨rfl, known, other, visits, edge⟩, rfl⟩)

omit searching in
/-- Discovered nodes are in the list at their distances, once those reported are inserted. -/
theorem mem_ordered_iff {full : List (Slot I)}
    (all : ∀ nbr, nbr ∈ full.map Slot.neighbor ↔ nbr.id ∈ visited ∧ nbr.distance = distance nbr.id)
    (reports : ∀ nbr ∈ reported, nbr.distance = distance nbr.id) (nbr : Neighbor I) :
    nbr ∈ (ordered full reported).map Slot.neighbor ↔
      nbr.id ∈ visited ∪ (reported.map (·.id)).toFinset ∧ nbr.distance = distance nbr.id := by
  rw [(neighbors_ordered_perm full reported).mem_iff, mem_append, all,
    Finset.mem_union, mem_toFinset]
  constructor
  · rintro (new | ⟨known, far⟩)
    · exact ⟨.inr (mem_map_of_mem new), reports nbr new⟩
    · exact ⟨.inl known, far⟩
  · rintro ⟨known | new, far⟩
    · exact .inr ⟨known, far⟩
    · obtain ⟨other, mem, same⟩ := mem_map.mp new
      have equal : other = nbr := by
        cases other
        cases same
        exact congrArg _ ((reports _ mem).trans far.symm)
      exact .inl (equal ▸ mem)

theorem closest_hop (numbers : ∀ id ∈ G.nodes, (distance id).isNan = false)
    (walked : q.Beam beam t) (reports : Reports G distance (beam.map (·.id)) visited reported) :
    (t.insertAll reported).Fixed c ∧ ∃ full : List (Slot I), full.Pairwise Slot.le ∧
      (t.insertAll reported).slots = full.take c ∧ ((full.map Slot.neighbor).map (·.id)).Nodup ∧
      ∀ nbr, nbr ∈ full.map Slot.neighbor ↔
        nbr.id ∈ visited ∪ (reported.map (·.id)).toFinset ∧ nbr.distance = distance nbr.id := by
  obtain ⟨full, sorted, held, nodup, all⟩ := searching.closest
  obtain ⟨full', sorted', held', same⟩ := walked.exists_full sorted held
  have inside := (searching.hop walked reports).inside
  have reportedAt : ∀ nbr ∈ reported, nbr.distance = distance nbr.id :=
    fun nbr mem => ((reports.mem_iff nbr).mp mem).1
  have reportedNumbers : ∀ nbr ∈ reported, nbr.distance.isNan = false := by
    intro nbr mem
    rw [reportedAt nbr mem]
    exact numbers _ (inside (Finset.mem_union_right _
      (mem_toFinset.mpr (mem_map_of_mem mem))))
  obtain ⟨fixed', slots'⟩ := (walked.fixed searching.fixed).insertAll_slots held' reportedNumbers
  refine ⟨fixed', ordered full' reported, sorted_ordered sorted' reported, slots',
    ?_, mem_ordered_iff (same ▸ all) reportedAt⟩
  have perm := (neighbors_ordered_perm full' reported).map (·.id)
  rw [perm.nodup_iff, same, map_append]
  refine Nodup.append reports.nodup nodup ?_
  intro id new old
  obtain ⟨nbr, mem, rfl⟩ := mem_map.mp new
  obtain ⟨other, known, equal⟩ := mem_map.mp old
  exact Explored.reported_fresh reports nbr mem (equal ▸ ((all other).mp known).1)

theorem hop (numbers : ∀ id ∈ G.nodes, (distance id).isNan = false)
    (walked : q.Beam beam t) (reports : Reports G distance (beam.map (·.id)) visited reported) :
    Searching G distance starts c (t.insertAll reported)
      (visited ∪ (reported.map (·.id)).toFinset) (expanded ++ beam.map (·.id)) where
  toExplored := searching.toExplored.hop walked reports
  settled := (walked.settled searching.settled).insertAll reported
  fixed := (searching.closest_hop numbers walked reports).1
  once := searching.once_hop walked
  seen := searching.seen_hop walked reports
  flagged := searching.flagged_hop walked
  discovered := searching.discovered_hop reports
  closest := (searching.closest_hop numbers walked reports).2

omit searching in
/-- The start points in an empty queue. -/
theorem start (pos : 1 ≤ c) (distinct : starts.Nodup) (inside : ∀ id ∈ starts, id ∈ G.nodes)
    (numbers : ∀ id ∈ G.nodes, (distance id).isNan = false)
    (reports : reported.Perm (starts.map fun id => ⟨id, distance id⟩)) :
    Searching G distance starts c ((empty c false).insertAll reported)
      (∅ ∪ (reported.map (·.id)).toFinset) [] := by
  have ids := ids_of_starts reports
  have nodup : (reported.map (·.id)).Nodup := ids.nodup_iff.mpr distinct
  have reportedAt := distance_of_starts reports
  have known : ∀ id, id ∈ ∅ ∪ (reported.map (·.id)).toFinset ↔ id ∈ starts := by
    intro id
    rw [Finset.empty_union, mem_toFinset, ids.mem_iff]
  have reportedNumbers : ∀ nbr ∈ reported, nbr.distance.isNan = false := by
    intro nbr mem
    rw [reportedAt nbr mem]
    exact numbers _ (inside _ (ids.mem_iff.mp (mem_map_of_mem mem)))
  have empty : (empty c false : SlotQueue I).Fixed c := ⟨rfl, rfl, rfl⟩
  obtain ⟨fixed, slots⟩ := empty.insertAll_slots
    (show (SlotQueue.empty c false).slots = ([] : List (Slot I)).take c from take_nil.symm)
    reportedNumbers
  have settled : (SlotQueue.empty c false : SlotQueue I).Settled := rfl
  refine ⟨.start pos distinct inside reports, settled.insertAll _, fixed, nodup_nil,
    forall_mem_nil _, ?_, ?_, ?_⟩
  · intro slot mem flag
    rcases mem_insertAll_slots mem with ⟨nbr, -, rfl⟩ | old
    · cases flag
    · cases old
  · intro id
    rw [known]
    simp
  · refine ⟨ordered [] reported, sorted_ordered .nil _, slots, ?_,
      mem_ordered_iff (by simp) reportedAt⟩
    have perm := (neighbors_ordered_perm [] reported).map (·.id)
    rw [perm.nodup_iff, map_nil, append_nil]
    exact nodup

omit [DecidableEq I] in
/-- When no entry is left to visit, all of them have been expanded. -/
theorem expanded_of_done
    (done : q.toQueue.hasNotvisitedNode = false) : ∀ nbr ∈ q.neighbors, nbr.id ∈ expanded := by
  intro nbr mem
  obtain ⟨slot, held, rfl⟩ := mem_map.mp mem
  refine searching.flagged slot held ?_
  have last : q.slots.length ≤ q.cursor := by
    have passed : ¬ q.cursor < min q.searchParamL q.slots.length := of_decide_eq_false done
    have fits := q.fits
    rw [searching.fixed.capacity, ← searching.fixed.searchParamL] at fits
    omega
  have all : q.slots.findIdx (fun slot => !slot.visited) = q.slots.length :=
    le_antisymm findIdx_le_length (last.trans_eq searching.settled)
  simpa using findIdx_eq_length.mp all slot held

end Searching

/-- What a finished search with search list size `l` leaves: `record` names the nodes it expanded. -/
structure Finished (G : FiniteGraph I) (distance : I → F32) (starts : List I) (l : ℕ)
    (s : Search I σ) : Prop where
  once : (s.record.map (·.neighbor.id)).Nodup
  expanded : ∀ nbr ∈ s.scratch.best.neighbors.take l, nbr.id ∈ s.record.map (·.neighbor.id)
  sorted : s.scratch.best.Sorted
  closest : ∃ discovered : List (Neighbor I), (discovered.map (·.id)).Nodup ∧
    (∀ nbr, nbr ∈ discovered ↔ nbr.distance = distance nbr.id ∧
      (nbr.id ∈ starts ∨ ∃ other ∈ s.record.map (·.neighbor.id), nbr.id ∈ G.neighbors other)) ∧
    discovered.Pairwise (·.distance.key ≤ ·.distance.key) ∧
    s.scratch.best.neighbors = discovered.take (l + starts.length)

omit [DecidableEq I] in
theorem Searching.finished {visited : Finset I}
    (searching : Searching G distance starts (l + starts.length) q visited
      (s.record.map (·.neighbor.id))) (stored : s.scratch.best = q.toQueue)
    (done : q.toQueue.hasNotvisitedNode = false) : Finished G distance starts l s := by
  obtain ⟨full, sorted, held, nodup, all⟩ := searching.closest
  refine ⟨searching.once, fun nbr mem => ?_, stored ▸ q.toQueue_sorted,
    full.map Slot.neighbor, nodup, fun nbr => ?_, pairwise_map.mpr sorted, ?_⟩
  · rw [stored, q.toQueue_neighbors] at mem
    exact searching.expanded_of_done done nbr (mem_of_mem_take mem)
  · rw [all, searching.discovered, and_comm]
  · rw [stored, q.toQueue_neighbors, neighbors, held, map_take]

/-- The invariant of the main loop holds after a hop, which has less left to do. -/
theorem Searching.step {c : ℕ} (lawful : A.Lawful G distance starts)
    (numbers : ∀ id ∈ G.nodes, (distance id).isNan = false) (wide : 0 < beamWidth)
    (searching : Searching G distance starts c q s.scratch.visited (s.record.map (·.neighbor.id)))
    (stored : s.scratch.best = q.toQueue) (has : s.scratch.best.hasNotvisitedNode = true) (a : σ) :
    ∃ s', Search.hop A beamWidth { s with accessor := a } = pure s' ∧
      (∃ q' : SlotQueue I, s'.scratch.best = q'.toQueue ∧
        Searching G distance starts c q' s'.scratch.visited (s'.record.map (·.neighbor.id))) ∧
      remaining G s' < remaining G s := by
  obtain ⟨beam, t, reported, s', walked, nonempty, reports, hopped, stored', visited', record'⟩ :=
    hop_eq (s := { s with accessor := a }) lawful stored searching.room beamWidth
  have ids : s'.record.map (·.neighbor.id) = s.record.map (·.neighbor.id) ++ beam.map (·.id) := by
    have mapped := congrArg (List.map Neighbor.id) record'
    rwa [map_append, map_map, map_map] at mapped
  refine ⟨s', hopped, ⟨t.insertAll reported, stored', ?_⟩, ?_⟩
  · rw [visited', ids]
    exact searching.hop numbers walked reports
  · exact searching.toExplored.remaining_lt walked (nonempty wide (stored ▸ has)) reports stored
      stored' visited'

/-- A search from the start points ends with no entry left to visit. -/
theorem searchInternal_searching (lawful : A.Lawful G distance starts) (distinct : starts.Nodup)
    (inside : ∀ id ∈ starts, id ∈ G.nodes) (numbers : ∀ id ∈ G.nodes, (distance id).isNan = false)
    (pos : 1 ≤ l) {beamWidth : Option ℕ} (wide : ∀ width ∈ beamWidth, 1 ≤ width)
    (pooled : Option (SearchScratch I)) (a : σ) :
    ∃ bound s, ∃ q : SlotQueue I, s.scratch.best = q.toQueue ∧
      Searching G distance starts (l + starts.length) q s.scratch.visited
        (s.record.map (·.neighbor.id)) ∧
      q.toQueue.hasNotvisitedNode = false ∧ ∀ fuel, bound < fuel →
        searchInternal A fuel beamWidth ⟨a, .searchScratch pooled l starts.length, []⟩ =
          pure (⟨s.scratch.cmps, s.scratch.hops, false⟩, s) := by
  have pos' : 1 ≤ l + starts.length := by omega
  have wide' : 0 < beamWidth.getD 1 := by
    cases beamWidth with
    | none => exact one_pos
    | some width => exact wide width rfl
  rw [SearchScratch.searchScratch_eq]
  obtain ⟨reported, s₀, reports, entered, stored₀, visited₀, record₀⟩ := enterStartPoints_eq
    (s := ⟨a, .new (.fixed (l + starts.length)), []⟩) (q := .empty (l + starts.length) false)
    lawful rfl (.inr pos') rfl
  have started := Searching.start pos' distinct inside numbers reports
  obtain ⟨s, looped, ⟨q, stored, searching⟩, done⟩ := loop_ends
    (P := fun s => ∃ q : SlotQueue I, s.scratch.best = q.toQueue ∧
      Searching G distance starts (l + starts.length) q s.scratch.visited
        (s.record.map (·.neighbor.id)))
    (fun s a ⟨q, stored, searching⟩ has => searching.step lawful numbers wide' stored has a)
    (fun s a held _ => held) ⟨_, stored₀, by rw [visited₀, record₀]; exact started⟩
  refine ⟨remaining G s₀, s, q, stored, searching, stored ▸ done lawful.terminate_early, fun fuel enough => ?_⟩
  rw [searchInternal, entered, pure_bind, looped fuel enough, pure_bind]

/-- A search from the start points ends, with whatever fuel is enough, and has then expanded no node
twice, expanded the nodes it answers and kept the closest of all nodes it has discovered. -/
theorem searchInternal_finished (lawful : A.Lawful G distance starts) (distinct : starts.Nodup)
    (inside : ∀ id ∈ starts, id ∈ G.nodes)
    (numbers : ∀ id ∈ G.nodes, (distance id).isNan = false) {l : ℕ} (positive : 1 ≤ l)
    {beamWidth : Option ℕ} (wide : ∀ width ∈ beamWidth, 1 ≤ width)
    (pooled : Option (SearchScratch I)) (a : σ) :
    ∃ bound stats s, Finished G distance starts l s ∧ ∀ fuel, bound < fuel →
      searchInternal A fuel beamWidth ⟨a, .searchScratch pooled l starts.length, []⟩ =
        pure (stats, s) := by
  obtain ⟨bound, s, q, stored, searching, done, ran⟩ :=
    searchInternal_searching lawful distinct inside numbers positive wide pooled a
  exact ⟨bound, _, s, searching.finished stored done, ran⟩

/-- Node 0 leads to 1 and 2, which lead on to 3 and back. -/
def diamond : FiniteGraph ℕ where
  nodes := {0, 1, 2, 3}
  neighbors id := if id = 0 then [1, 2, 1] else if id = 1 then [3, 0] else if id = 2 then [3] else []
  closed := by decide

/-- Distances 5, 3, 2 and 1 of the nodes. -/
def diamondDistance (id : ℕ) : F32 :=
  if id = 0 then ⟨0x40a00000⟩ else if id = 1 then ⟨0x40400000⟩
  else if id = 2 then ⟨0x40000000⟩ else ⟨0x3f800000⟩

/-- With one place besides the start point, node 1 is discovered and gives way to node 3. -/
theorem searchInternal_finished_diamond :
    ∃ stats s, Finished diamond diamondDistance [0] 1 s ∧
      s.scratch.best.neighbors = [⟨3, ⟨0x3f800000⟩⟩, ⟨2, ⟨0x40000000⟩⟩] ∧ ∃ fuel,
      searchInternal (.ofGraph diamond diamondDistance [0]) fuel none
        ⟨(), .searchScratch none 1 1, []⟩ = pure (stats, s) := by
  obtain ⟨bound, stats, s, finished, ran⟩ := searchInternal_finished
    (SearchAccessor.ofGraph_lawful diamond diamondDistance [0]) (by decide) (by decide) (by decide)
    (le_refl 1) (fun width (some : width ∈ (none : Option ℕ)) => by cases some) none ()
  have computed : ∃ stats' s', searchInternal (.ofGraph diamond diamondDistance [0]) (bound + 5) none
        ⟨(), .searchScratch none 1 1, []⟩ = pure (stats', s') ∧
      s'.scratch.best.neighbors = [⟨3, ⟨0x3f800000⟩⟩, ⟨2, ⟨0x40000000⟩⟩] := ⟨_, _, rfl, rfl⟩
  obtain ⟨stats', s', ran', held⟩ := computed
  have same := Except.ok.inj (Option.some.inj ((ran (bound + 5) (by omega)).symm.trans ran'))
  cases same
  exact ⟨stats, s, finished, held, _, ran'⟩

open Classical in
omit [DecidableEq I] in
/-- The part of the graph that can be reached from the start points. -/
noncomputable def reached (G : FiniteGraph I) (starts : List I) : FiniteGraph I where
  nodes := {id ∈ G.nodes | G.Reachable starts id}
  neighbors := G.neighbors
  closed id mem other edge := by
    obtain ⟨node, start, first, path⟩ := Finset.mem_filter.mp mem
    exact Finset.mem_filter.mpr ⟨G.closed id node other edge, start, first, path.tail edge⟩

/-- A search whose list has room for the nodes it can reach is exact: it answers these nodes, each once
and ordered by their distances. -/
theorem searchInternal_exact (lawful : A.Lawful G distance starts) (distinct : starts.Nodup)
    (inside : ∀ id ∈ starts, id ∈ G.nodes)
    (numbers : ∀ id ∈ G.nodes, (distance id).isNan = false) (pos : 1 ≤ l)
    (room : (reached G starts).nodes.card ≤ l + starts.length) {beamWidth : Option ℕ}
    (wide : ∀ width ∈ beamWidth, 1 ≤ width) (pooled : Option (SearchScratch I)) (a : σ) :
    ∃ bound stats s, (s.scratch.best.neighbors.map (·.id)).Nodup ∧
      s.scratch.best.neighbors.Pairwise (·.distance.key ≤ ·.distance.key) ∧
      (∀ nbr, nbr ∈ s.scratch.best.neighbors ↔
        G.Reachable starts nbr.id ∧ nbr.distance = distance nbr.id) ∧
      ∀ fuel, bound < fuel →
        searchInternal A fuel beamWidth ⟨a, .searchScratch pooled l starts.length, []⟩ =
          pure (stats, s) := by
  classical
  -- what is reported depends on the neighbors only, so the accessor stands for this part as well
  have lawful' : A.Lawful (reached G starts) distance starts := { lawful with
    expand_beam := fun a ids visited =>
      let ⟨reported, a', answered, nodup, mem_iff⟩ := lawful.expand_beam a ids visited
      ⟨reported, a', answered, nodup, mem_iff⟩ }
  obtain ⟨bound, s, q, stored, searching, done, ran⟩ := searchInternal_searching lawful' distinct
    (fun id first => Finset.mem_filter.mpr ⟨inside id first, id, first, .refl⟩)
    (fun id mem => numbers id (Finset.mem_filter.mp mem).1) pos wide pooled a
  obtain ⟨full, sorted, held, nodup, all⟩ := searching.closest
  have few := card_add_length_le (Finset.empty_subset (reached G starts).nodes) nodup fun id mem => by
    obtain ⟨nbr, listed, rfl⟩ := mem_map.mp mem
    exact ⟨Finset.notMem_empty _, searching.inside ((all nbr).mp listed).1⟩
  rw [Finset.card_empty, zero_add, length_map, length_map] at few
  rw [take_of_length_le (few.trans room)] at held
  have answers : s.scratch.best.neighbors = full.map Slot.neighbor := by
    rw [stored, q.toQueue_neighbors, neighbors, held]
  -- nothing discovered was dropped, so all of it was expanded, along the whole path to a node
  have seen : ∀ id, G.Reachable starts id → id ∈ s.scratch.visited := by
    rintro id ⟨start, first, path⟩
    induction path with
    | refl => exact (searching.discovered _).mpr (.inl first)
    | @tail before _ _ edge seen =>
      refine (searching.discovered _).mpr (.inr ⟨before, ?_, edge⟩)
      refine searching.expanded_of_done done ⟨before, distance before⟩ ?_
      rw [neighbors, held]
      exact (all _).mpr ⟨seen, rfl⟩
  refine ⟨bound, _, s, answers ▸ nodup, answers ▸ pairwise_map.mpr sorted, fun nbr => ?_, ran⟩
  rw [answers, all]
  refine and_congr_left fun _ => ⟨fun mem => ?_, seen nbr.id⟩
  exact (Finset.mem_filter.mp (searching.inside mem)).2

/-- With three places besides the start point, the whole diamond fits. -/
theorem searchInternal_exact_diamond :
    ∃ fuel stats s, (∀ nbr, nbr ∈ s.scratch.best.neighbors ↔
        diamond.Reachable [0] nbr.id ∧ nbr.distance = diamondDistance nbr.id) ∧
      searchInternal (.ofGraph diamond diamondDistance [0]) fuel none
        ⟨(), .searchScratch none 3 1, []⟩ = pure (stats, s) := by
  obtain ⟨bound, stats, s, -, -, all, ran⟩ := searchInternal_exact (l := 3)
    (SearchAccessor.ofGraph_lawful diamond diamondDistance [0]) (by decide) (by decide) (by decide)
    (by decide) (by classical exact Finset.card_filter_le _ _)
    (fun width (some : width ∈ (none : Option ℕ)) => by cases some) none ()
  exact ⟨_, stats, s, all, ran _ (Nat.lt_succ_self bound)⟩

end Search

end DiskAnn
