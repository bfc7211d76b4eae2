import DiskAnn.Graph.AdaptiveL
import DiskAnn.Graph.FilteredRange
import DiskAnn.Graph.RangeSearchRun

/-! # What a filtered range search hands out

An accessor answers for nodes of a finite graph, each with its distance and the decision of the filter,
and none that the predicate rules out. It may fail, end the search early, and leave out nodes. Both
rounds end then, and what has been collected are accepted nodes, each once: whatever the first round
has accepted within the radius is among the nodes the second one has visited from the start.
-/

namespace DiskAnn

open Fallible List InlineFilter Decided Search

variable {I σ E : Type} [LinearOrder I] {A : FilteredAccessor I σ E} {G : FiniteGraph I}
  {distance : I → F32} {filter : I → Bool}

/-- The callback is given the distance of the node and the decision of the filter. -/
structure Decided.Right (distance : I → F32) (filter : I → Bool) (d : Decided I) : Prop where
  distance_eq : d.distance = distance d.decision.intoInner
  decision_eq : d.decision.isAccept = filter d.decision.intoInner

structure FilteredAccessor.Honours (A : FilteredAccessor I σ E) (G : FiniteGraph I)
    (distance : I → F32) (filter : I → Bool) : Prop where
  start_point_distances : ∀ a reported a', A.startPointDistances a = .ok (reported, a') →
    (reported.map (·.decision.intoInner)).Nodup ∧
      ∀ d ∈ reported, d.Right distance filter ∧ d.decision.intoInner ∈ G.nodes
  expand_beam : ∀ a ids visited reported visited' a',
    A.expandBeamFiltered a ids visited = .ok (reported, visited', a') →
    (reported.map (·.decision.intoInner)).Nodup ∧ visited ⊆ visited' ∧
      (∀ d ∈ reported, d.Right distance filter ∧ d.decision.intoInner ∉ visited ∧
        d.decision.intoInner ∈ visited') ∧
      ∀ id ∈ visited', id ∈ visited ∨ ∃ other ∈ ids, id ∈ G.neighbors other

/-! ## Nodes that were accepted -/

/-- A list of accepted nodes among those visited, each once. -/
structure Collected (distance : I → F32) (filter : I → Bool) (visited : Finset I)
    (matched : List (Neighbor I)) : Prop where
  distinct : (matched.map (·.id)).Nodup
  held : ∀ nbr ∈ matched, filter nbr.id = true ∧ nbr.distance = distance nbr.id ∧ nbr.id ∈ visited

namespace Collected

variable {visited visited' : Finset I} {matched more : List (Neighbor I)} {reported : List (Decided I)}

omit [LinearOrder I] in
theorem append (collected : Collected distance filter visited matched) (grows : visited ⊆ visited')
    (others : Collected distance filter visited' more) (fresh : ∀ nbr ∈ more, nbr.id ∉ visited) :
    Collected distance filter visited' (matched ++ more) where
  distinct := by
    rw [map_append]
    refine collected.distinct.append others.distinct fun id old new => ?_
    obtain ⟨nbr, member, rfl⟩ := mem_map.mp new
    obtain ⟨other, known, same⟩ := mem_map.mp old
    exact fresh nbr member (same ▸ (collected.held other known).2.2)
  held nbr member := by
    rcases mem_append.mp member with old | new
    · obtain ⟨kept, far, known⟩ := collected.held nbr old
      exact ⟨kept, far, grows known⟩
    · exact others.held nbr new

omit [LinearOrder I] in
theorem sublist (collected : Collected distance filter visited matched)
    (sub : more.Sublist matched) : Collected distance filter visited more :=
  ⟨collected.distinct.sublist (sub.map _), fun nbr mem => collected.held nbr (sub.subset mem)⟩

omit [LinearOrder I] in
theorem accepted (nodup : (reported.map (·.decision.intoInner)).Nodup)
    (right : ∀ d ∈ reported, d.Right distance filter)
    (known : ∀ d ∈ reported, d.decision.intoInner ∈ visited) :
    Collected distance filter visited (accepted reported) where
  distinct := by
    rw [Decided.accepted, map_map]
    exact nodup.sublist (filter_sublist.map _)
  held nbr member := by
    obtain ⟨d, listed, rfl⟩ := mem_map.mp member
    obtain ⟨listed, kept⟩ := mem_filter.mp listed
    exact ⟨(right d listed).decision_eq.symm.trans kept, (right d listed).distance_eq, known d listed⟩

end Collected

/-! ## The first round -/

namespace InlineFilter

variable {lib : FloatLibrary} {params : Knn} {s : InlineFilter I σ}

/-- The state of a first round. -/
structure Collecting (G : FiniteGraph I) (distance : I → F32) (filter : I → Bool)
    (s : InlineFilter I σ) : Prop where
  explored : ∃ q : SlotQueue I, s.scratch.best = q.toQueue ∧
    Search.Explored G distance q s.scratch.visited
  collected : Collected distance filter s.scratch.visited s.matchedResults

variable (honours : A.Honours G distance filter)
include honours

theorem collecting_enter {c : ℕ} (pos : 1 ≤ c) (a : σ) :
    Ends (enter A ⟨a, .new (.fixed c), []⟩) (Collecting G distance filter) := by
  rw [enter_eq A pos]
  refine (ends_liftM_except fun answer answered =>
    honours.start_point_distances a answer.1 answer.2 answered).bind fun answer ⟨nodup, right⟩ => ?_
  have known : ∀ d ∈ answer.1, d.decision.intoInner ∈
      ∅ ∪ (answer.1.map (·.decision.intoInner)).toFinset := fun d listed =>
    Finset.mem_union_right _ (mem_toFinset.mpr (mem_map_of_mem listed))
  have empty : Explored G distance (SlotQueue.empty c false) ∅ :=
    ⟨.inr pos, Nat.zero_le _, nodup_nil, Finset.empty_subset _, nofun⟩
  refine ends_pure ⟨⟨_, rfl, empty.discover (.done _) Finset.subset_union_left ?_ ?_ nofun ?_⟩,
    .accepted nodup (fun d listed => (right d listed).1) known⟩
  · intro id mem
    rw [Finset.empty_union, mem_toFinset] at mem
    obtain ⟨d, listed, rfl⟩ := mem_map.mp mem
    exact (right d listed).2
  · rw [map_map]
    exact nodup
  · intro nbr mem
    obtain ⟨d, listed, rfl⟩ := mem_map.mp mem
    exact ⟨known d listed, (right d listed).1.distance_eq⟩

variable (collecting : Collecting G distance filter s)
include collecting

theorem Collecting.hop :
    Ends (hop A params s) fun answer => Collecting G distance filter answer.1 ∧
      (answer.2 = true → remaining G answer.1.toSearch < remaining G s.toSearch) := by
  obtain ⟨q, stored, explored⟩ := collecting.explored
  rcases hop_eq A params stored explored.room with
    ⟨s', stored', visited', matched', left, -⟩ | ⟨beam, t, walked, nonempty, went⟩
  · rw [left]
    refine ends_pure ⟨⟨⟨q, stored', visited' ▸ explored⟩, ?_⟩, nofun⟩
    rw [visited', matched']
    exact collecting.collected
  · rw [went]
    refine (ends_liftM_except fun answer answered => honours.expand_beam _ _ _ answer.1 answer.2.1
      answer.2.2 answered).bind fun answer ⟨nodup, grows, right, discovered⟩ => ends_pure ?_
    have inside : answer.2.1 ⊆ G.nodes := by
      intro id mem
      rcases discovered id mem with old | ⟨other, expanded, edge⟩
      · exact explored.inside old
      · obtain ⟨source, visits, rfl⟩ := mem_map.mp expanded
        exact G.closed _ (explored.inside (explored.held _ (walked.subset _ visits)).1) _ edge
    have ids : (answer.1.map neighbor).map (·.id) =
        answer.1.map (·.decision.intoInner) := by
      rw [map_map]
      rfl
    have explored' : Explored G distance (t.insertAll (answer.1.map neighbor))
        answer.2.1 := by
      refine explored.discover walked grows inside (ids ▸ nodup) ?_ ?_
      · intro nbr mem
        obtain ⟨d, listed, rfl⟩ := mem_map.mp mem
        exact (right d listed).2.1
      · intro nbr mem
        obtain ⟨d, listed, rfl⟩ := mem_map.mp mem
        exact ⟨(right d listed).2.2, (right d listed).1.distance_eq⟩
    have others : Collected distance filter answer.2.1 (accepted answer.1) :=
      .accepted nodup (fun d listed => (right d listed).1) fun d listed => (right d listed).2.2
    refine ⟨⟨⟨_, rfl, explored'⟩, collecting.collected.append grows others fun nbr mem => ?_⟩,
      fun _ => Explored.remaining_lt_of_le walked nonempty explored' ?_ stored rfl⟩
    · obtain ⟨d, listed, rfl⟩ := mem_map.mp mem
      exact (right d (mem_of_mem_filter listed)).2.1
    · have counted := card_add_length_le grows nodup fun id mem => by
        obtain ⟨d, listed, rfl⟩ := mem_map.mp mem
        exact (right d listed).2
      rwa [length_map] at counted ⊢

theorem Collecting.loop {fuel : ℕ}
    (enough : remaining G s.toSearch < fuel) :
    Ends (loop A lib params none fuel s) (Collecting G distance filter) := by
  induction fuel generalizing s with
  | zero => omega
  | succ fuel ih =>
    refine (collecting.hop honours).bind fun answer ⟨kept, less⟩ => ?_
    obtain ⟨s', goes⟩ := answer
    cases goes with
    | false => exact ends_pure kept
    | true => exact ih kept (Nat.lt_of_lt_of_le (less rfl) (Nat.le_of_lt_succ enough))

omit collecting

/-- The first round ends with accepted nodes, each once. -/
theorem collecting_search (params : Knn) (lib : FloatLibrary)
    {sort : List (Neighbor I) → List (Neighbor I)} (perm : ∀ l, (sort l).Perm l) (starts : ℕ)
    (pooled : Option (SearchScratch I)) (a : σ) {fuel : ℕ}
    (enough : G.nodes.card * (G.nodes.card + 1) + G.nodes.card < fuel) :
    Ends (inlineFilterSearchInternal A lib params none sort fuel
      ⟨a, .searchScratch pooled params.lValue starts, []⟩) (Collecting G distance filter) := by
  rw [SearchScratch.searchScratch_eq]
  refine (collecting_enter honours (le_add_right params.lValue_pos) a).bind fun s begun => ?_
  obtain ⟨q, stored, explored⟩ := begun.explored
  have short := explored.remaining_lt_square stored
  have square : (G.nodes.card + 1) ^ 2 = G.nodes.card * (G.nodes.card + 1) + G.nodes.card + 1 := by ring
  refine (begun.loop honours (by omega)).bind fun s done => ends_pure ?_
  exact ⟨done.explored, ((perm s.matchedResults).map _).nodup_iff.mpr done.collected.distinct,
    fun nbr mem => done.collected.held nbr ((perm _).subset mem)⟩

end InlineFilter

/-! ## The second round -/

omit [LinearOrder I] in
/-- Every id is still there after `dedup_by`. -/
theorem mem_ids_dedupById [DecidableEq I] (l : List (Neighbor I)) (id : I) :
    id ∈ (dedupById l).map (·.id) ↔ id ∈ l.map (·.id) := by
  have step : ∀ (l : List (Neighbor I)) (a : Neighbor I),
      id ∈ (l.destutter' (fun left right => left.id ≠ right.id) a).map (·.id) ↔
        id = a.id ∨ id ∈ l.map (·.id) := by
    intro l
    induction l with
    | nil => simp
    | cons b l ih =>
      intro a
      rw [destutter'_cons]
      split <;> rename_i same
      · rw [map_cons, mem_cons, ih, map_cons, mem_cons]
      · rw [not_not] at same
        rw [ih, map_cons, mem_cons, same]
        tauto
  cases l with
  | nil => rfl
  | cons a l => rw [dedupById, destutter_cons', step, map_cons, mem_cons]

namespace FilteredRange

variable {r : Range}

omit [LinearOrder I] in
/-- What is kept of a node: it is walked on from, and it is a match. -/
theorem take_eq (r : Range) (s : FilteredScratch I σ) (d : Decided I) :
    ∃ walked kept, walked.Sublist [d.decision.intoInner] ∧
      kept.Sublist ((accepted [d]).filter fun n => r.radius.ge n.distance) ∧
      take r s d = { s with
        rangeFrontier := s.rangeFrontier ++ walked
        matchedInRange := s.matchedInRange ++ kept } := by
  unfold take
  split
  · dsimp only
    split <;> rename_i matched
    · obtain ⟨⟨close, accepted⟩, -⟩ := by simpa only [Bool.and_eq_true] using matched
      refine ⟨_, [d.neighbor], .refl _, ?_, rfl⟩
      simp [Decided.accepted, accepted, close, Decided.neighbor]
    · exact ⟨_, [], .refl _, nil_sublist _, by rw [append_nil]⟩
  · exact ⟨[], [], nil_sublist _, nil_sublist _, by simp only [append_nil]⟩

omit [LinearOrder I] in
/-- The loop over the reported nodes. -/
theorem foldl_take (r : Range) (s : FilteredScratch I σ) (reported : List (Decided I)) :
    ∃ walked kept, walked.Sublist (reported.map (·.decision.intoInner)) ∧
      kept.Sublist ((accepted reported).filter fun n => r.radius.ge n.distance) ∧
      reported.foldl (take r) s = { s with
        rangeFrontier := s.rangeFrontier ++ walked
        matchedInRange := s.matchedInRange ++ kept } := by
  induction reported generalizing s with
  | nil => exact ⟨[], [], .refl _, .refl _, by simp⟩
  | cons d reported ih =>
    obtain ⟨walked₁, kept₁, walks₁, keeps₁, took⟩ := take_eq r s d
    obtain ⟨walked₂, kept₂, walks₂, keeps₂, folded⟩ := ih (take r s d)
    have split : accepted (d :: reported) =
        accepted [d] ++ accepted reported := by
      unfold accepted
      rw [← map_append, ← filter_append, singleton_append]
    refine ⟨walked₁ ++ walked₂, kept₁ ++ kept₂, walks₁.append walks₂, ?_, ?_⟩
    · rw [split, filter_append]
      exact keeps₁.append keeps₂
    · rw [foldl_cons, folded, took]
      simp only [append_assoc]

/-- The state of a second round. -/
structure Walking (G : FiniteGraph I) (distance : I → F32) (filter : I → Bool) (r : Range)
    (s : FilteredScratch I σ) : Prop where
  inside : s.visited ⊆ G.nodes
  frontier : ∀ id ∈ s.rangeFrontier, id ∈ G.nodes
  collected : Collected distance filter s.visited s.matchedInRange
  near : ∀ nbr ∈ s.matchedInRange, r.radius.ge nbr.distance = true

/-- What bounds the rest of a second round: a node is put into the frontier once. -/
def remaining (G : FiniteGraph I) (s : FilteredScratch I σ) : ℕ :=
  G.nodes.card - s.visited.card + s.rangeFrontier.length

theorem Walking.hop {s : FilteredScratch I σ} (honours : A.Honours G distance filter)
    (walking : Walking G distance filter r s) (nonempty : s.rangeFrontier ≠ []) :
    Ends (FilteredRange.hop A r s) fun s' =>
      Walking G distance filter r s' ∧ remaining G s' < remaining G s := by
  refine (ends_liftM_except fun answer answered => honours.expand_beam _ _ _ answer.1 answer.2.1
    answer.2.2 answered).bind ?_
  rintro ⟨reported, visited, a⟩ ⟨nodup, grows, right, discovered⟩
  refine ends_pure ?_
  obtain ⟨walked, kept, walks, keeps, folded⟩ := foldl_take r
    { s with accessor := a, visited, rangeFrontier := s.rangeFrontier.drop r.beamWidth } reported
  have inside : visited ⊆ G.nodes := by
    intro id mem
    rcases discovered id mem with old | ⟨other, expanded, edge⟩
    · exact walking.inside old
    · exact G.closed _ (walking.frontier other (mem_of_mem_take expanded)) _ edge
  have others : Collected distance filter visited kept :=
    (Collected.accepted nodup (fun d listed => (right d listed).1)
      fun d listed => (right d listed).2.2).sublist (keeps.trans filter_sublist)
  have known : ∀ id ∈ reported.map (·.decision.intoInner), id ∉ s.visited ∧ id ∈ visited := by
    intro id mem
    obtain ⟨d, listed, rfl⟩ := mem_map.mp mem
    exact (right d listed).2
  have fresh : ∀ nbr ∈ kept, nbr.id ∉ s.visited := by
    intro nbr mem
    obtain ⟨d, listed, rfl⟩ := mem_map.mp (mem_of_mem_filter (keeps.subset mem))
    exact (right d (mem_of_mem_filter listed)).2.1
  simp only [folded]
  refine ⟨⟨inside, fun id mem => ?_, walking.collected.append grows others fresh,
    fun nbr mem => ?_⟩, ?_⟩
  · rcases mem_append.mp mem with old | new
    · exact walking.frontier id (mem_of_mem_drop old)
    · exact inside (known id (walks.subset new)).2
  · rcases mem_append.mp mem with old | new
    · exact walking.near nbr old
    · exact (mem_filter.mp (keeps.subset new)).2
  · have counted := card_add_length_le grows nodup known
    dsimp only at counted
    have bounded := Finset.card_le_card inside
    have walks := walks.length_le
    have some := length_pos_of_ne_nil nonempty
    have wide := r.beamWidth_pos
    simp only [remaining, length_append, length_drop]
    omega

theorem Walking.loop {s : FilteredScratch I σ} (honours : A.Honours G distance filter)
    (walking : Walking G distance filter r s) {fuel : ℕ} (enough : remaining G s < fuel) :
    Ends (FilteredRange.loop A r fuel s) (Walking G distance filter r) := by
  induction fuel generalizing s with
  | zero => omega
  | succ fuel ih =>
    unfold FilteredRange.loop
    split <;> rename_i goes
    · refine (walking.hop honours goes.1).bind fun s' ⟨walking', less⟩ => ih walking' (by omega)
    · exact ends_pure walking

/-! ## Both rounds -/

/-- What the first round hands over to the second. -/
theorem walking_seeded {s : InlineFilter I σ} (sort : UnstableSort I)
    (collecting : Collecting G distance filter s) :
    Walking G distance filter r (seeded r sort s) ∧
      remaining G (seeded r sort s) ≤ 3 * G.nodes.card := by
  obtain ⟨q, stored, explored⟩ := collecting.explored
  have listed : (s.scratch.best.iter.take r.startingL).Sublist q.neighbors := by
    rw [stored, q.toQueue_iter]
    exact (take_sublist ..).trans ((take_sublist ..).map _)
  have held : ∀ nbr ∈ s.scratch.best.iter.take r.startingL ++ s.matchedResults,
      nbr.id ∈ s.scratch.visited := by
    intro nbr mem
    rcases mem_append.mp mem with queued | matched
    · exact (explored.held nbr (listed.subset queued)).1
    · exact (collecting.collected.held nbr matched).2.2
  have ids : ∀ id, id ∈ (inRange r sort s).map (·.id) ↔
      id ∈ ((s.scratch.best.iter.take r.startingL ++ s.matchedResults).filter
        fun n => r.radius.ge n.distance).map (·.id) := by
    intro id
    rw [inRange, mem_ids_dedupById, ((sort.fastDistanceTotal_perm _).map _).mem_iff]
  have inside : ∀ id ∈ (inRange r sort s).map (·.id), id ∈ G.nodes := by
    intro id mem
    obtain ⟨nbr, found, rfl⟩ := mem_map.mp ((ids id).mp mem)
    exact explored.inside (held nbr (mem_of_mem_filter found))
  have collected := collecting.collected.sublist
    (filter_sublist : (matchedWithinRadius r s).Sublist s.matchedResults)
  refine ⟨⟨fun id mem => inside id (mem_toFinset.mp mem), inside,
    ⟨collected.distinct, fun nbr mem => ?_⟩, fun nbr mem => (mem_filter.mp mem).2⟩, ?_⟩
  · obtain ⟨ok, far, -⟩ := collected.held nbr mem
    obtain ⟨matched, close⟩ := mem_filter.mp mem
    refine ⟨ok, far, mem_toFinset.mpr ((ids nbr.id).mpr (mem_map_of_mem ?_))⟩
    exact mem_filter.mpr ⟨mem_append_right _ matched, close⟩
  · have shorter : (inRange r sort s).length ≤
        (s.scratch.best.iter.take r.startingL).length + s.matchedResults.length := by
      rw [← length_append]
      refine (destutter_sublist _ _).length_le.trans ?_
      rw [(sort.fastDistanceTotal_perm _).length_eq]
      exact filter_sublist.length_le
    have queued := listed.length_le
    rw [SlotQueue.neighbors, length_map] at queued
    have room := explored.length_le
    have matched := card_add_length_le (Finset.empty_subset _) collecting.collected.distinct
      (t := s.scratch.visited) fun id mem => by
        obtain ⟨nbr, listed, rfl⟩ := mem_map.mp mem
        exact ⟨Finset.notMem_empty _, (collecting.collected.held nbr listed).2.2⟩
    rw [Finset.card_empty, length_map] at matched
    have bounded := Finset.card_le_card explored.inside
    simp only [remaining, seeded, length_map]
    omega

/-- What a search hands out. -/
structure Outputs (distance : I → F32) (filter : I → Bool) (r : Range) (result : FilteredResult I σ) :
    Prop where
  accepted : ∀ nbr ∈ result.output, filter nbr.id = true
  distinct : (result.output.map (·.id)).Nodup
  candidates_le : ∀ max ∈ r.maxReturned, result.candidates.length ≤ max
  candidates_near : ∀ nbr ∈ result.candidates, r.radius.ge nbr.distance = true
  within : ∀ nbr ∈ result.output, nbr.distance = distance nbr.id ∧
    r.radius.ge nbr.distance = true ∧ ∀ inner ∈ r.innerRadius, inner.lt nbr.distance = true

/-- Every search ends, for every graph and filter, and hands out nothing else. -/
def Safe (r : Range) : Prop :=
  ∀ {I σ E : Type} [LinearOrder I] (A : FilteredAccessor I σ E) (G : FiniteGraph I)
    (distance : I → F32) (filter : I → Bool), A.Honours G distance filter →
    ∀ (lib : FloatLibrary) (sort : UnstableSort I) (pooled : Option (SearchScratch I)) (a : σ),
    ∃ bound, ∀ fuel > bound,
      Ends (search A r lib sort fuel pooled a) (Outputs distance filter r)

omit [LinearOrder I] in
theorem truncate_sublist (r : Range) (matched : List (Neighbor I)) :
    (truncate r matched).Sublist matched := by
  unfold truncate
  split
  · exact .refl _
  · exact take_sublist ..

/-- The second round, if it runs, leaves accepted nodes within the radius, each once. -/
theorem secondRound_ends {s : InlineFilter I σ} (honours : A.Honours G distance filter)
    (sort : UnstableSort I) (collecting : Collecting G distance filter s) {fuel : ℕ}
    (enough : 3 * G.nodes.card < fuel) :
    Ends (secondRound A r sort fuel s) fun answer =>
      (∃ visited, Collected distance filter visited answer.2.1) ∧
        ∀ nbr ∈ answer.2.1, r.radius.ge nbr.distance = true := by
  obtain ⟨walking, short⟩ := walking_seeded sort collecting
  unfold secondRound
  split
  · refine (walking.loop honours (short.trans_lt enough)).bind fun s' walked => ends_pure ?_
    exact ⟨⟨_, walked.collected⟩, walked.near⟩
  · exact ends_pure ⟨⟨_, walking.collected⟩, walking.near⟩

theorem reported_iff (numbers : ∀ inner ∈ r.innerRadius, inner.isNan = false) {d : F32}
    (near : r.radius.ge d = true) :
    reported r d = true ↔ ∀ inner ∈ r.innerRadius, inner.lt d = true := by
  have both := r.reported_iff d numbers
  rwa [show r.reported d = (reported r d && r.radius.ge d) from rfl, near, Bool.and_true,
    and_iff_right rfl] at both

theorem safe (numbers : r.radius.isNan = true ∨ ∀ inner ∈ r.innerRadius, inner.isNan = false) :
    Safe r := by
  intro I σ E _ A G distance filter honours lib sort pooled a
  refine ⟨G.nodes.card * (G.nodes.card + 1) + 3 * G.nodes.card, fun fuel enough => ?_⟩
  refine (ends_liftM_except fun _ _ => trivial).bind fun starts _ => ?_
  refine (collecting_search honours (toKnn r) lib sort.fastDistance_perm starts pooled a
    (by omega)).bind fun s collecting => ?_
  refine (secondRound_ends honours sort collecting (by omega)).bind ?_
  rintro ⟨stats, matched, a'⟩ ⟨⟨visited, collected⟩, near⟩
  have candidates := truncate_sublist r matched
  have output := (filter_sublist (p := fun n => reported r n.distance)).trans candidates
  have collected := collected.sublist output
  refine ends_pure ⟨fun nbr mem => (collected.held nbr mem).1, collected.distinct,
    fun max bounded => ?_, fun nbr mem => near nbr (candidates.subset mem), fun nbr mem => ?_⟩
  · simp only [truncate, Option.mem_def.mp bounded]
    exact length_take_le ..
  · have close := near nbr (output.subset mem)
    refine ⟨(collected.held nbr mem).2.1, close, ?_⟩
    rcases numbers with none | numbers
    · rw [F32.ge_eq_true] at close
      simp [close.1] at none
    · exact (reported_iff numbers close).mp (mem_filter.mp mem).2

/-! ## Where it fails -/

/-- A stable sort, by distance and id. -/
def sortByDistance (l : List (Neighbor ℕ)) : List (Neighbor ℕ) :=
  l.insertionSort fun near far =>
    toLex (near.distance.key, near.id) ≤ toLex (far.distance.key, far.id)

theorem sortByDistance_sorted (l : List (Neighbor ℕ)) :
    (sortByDistance l).Pairwise fun near far => far.distance.lt near.distance = false ∧
      (far.distance.eq near.distance = true → near.id ≤ far.id) := by
  refine (pairwise_insertionSort _ l).imp fun {near far} ordered => ?_
  rw [Prod.Lex.toLex_le_toLex] at ordered
  have below : near.distance.key ≤ far.distance.key := by omega
  refine ⟨by simp [F32.lt, below], fun same => ?_⟩
  obtain ⟨-, -, same⟩ := F32.eq_eq_true.mp same
  omega

def stableSort : UnstableSort ℕ where
  fastDistance := sortByDistance
  fastDistance_perm := perm_insertionSort _
  fastDistance_sorted l _ := (sortByDistance_sorted l).imp And.left
  fastDistanceTotal := sortByDistance
  fastDistanceTotal_perm := perm_insertionSort _
  fastDistanceTotal_sorted l _ := sortByDistance_sorted l

/-- A graph of one node. -/
def single : FiniteGraph ℕ where
  nodes := {0}
  neighbors _ := []
  closed _ _ _ := nofun

/-- An accessor of that graph, accepted by the filter; it ends the first round at once. -/
def alone (distance : F32) : FilteredAccessor ℕ Unit Empty where
  numStartingPoints _ := .ok 1
  startPointDistances _ := .ok ([⟨.accept 0, distance⟩], ())
  expandBeamFiltered _ _ visited := .ok ([], visited, ())
  terminateEarly _ := (true, ())

theorem alone_honours (distance : F32) :
    (alone distance).Honours single (fun _ => distance) fun _ => true where
  start_point_distances a reported a' answered := by
    cases answered
    refine ⟨nodup_singleton _, fun d listed => ?_⟩
    obtain rfl := mem_singleton.mp listed
    exact ⟨⟨rfl, rfl⟩, Finset.mem_singleton_self _⟩
  expand_beam a ids visited reported visited' a' answered := by
    cases answered
    exact ⟨nodup_nil, Finset.Subset.refl _, nofun, fun id => .inl⟩

/-- Nothing is found in the second round. -/
theorem loop_alone (distance : F32) (r : Range) (s : FilteredScratch ℕ Unit) {fuel : ℕ}
    (enough : s.rangeFrontier.length < fuel) : ∃ s', loop (alone distance) r fuel s = pure s' ∧
      s'.matchedInRange = s.matchedInRange := by
  induction fuel generalizing s with
  | zero => omega
  | succ fuel ih =>
    unfold loop
    split <;> rename_i goes
    · have some := length_pos_of_ne_nil goes.1
      have wide := r.beamWidth_pos
      obtain ⟨s', looped, same⟩ := ih { s with
        rangeFrontier := s.rangeFrontier.drop r.beamWidth
        cmps := s.cmps + BitVec.ofNat 32 0
        hops := s.hops + BitVec.ofNat 32 (s.rangeFrontier.take r.beamWidth).length }
        (by simp only [length_drop]; omega)
      exact ⟨s', looped, same⟩
    · exact ⟨s, rfl, rfl⟩

/-- The node is what the first round finds. -/
theorem search_first (distance : F32) (params : Knn) (lib : FloatLibrary) (sort : UnstableSort ℕ) :
    ∃ s : InlineFilter ℕ Unit, s.matchedResults = [⟨0, distance⟩] ∧ ∀ fuel > 0,
      inlineFilterSearchInternal (alone distance) lib params none sort.fastDistance fuel
        ⟨(), .searchScratch none params.lValue 1, []⟩ = pure s := by
  rw [SearchScratch.searchScratch_eq]
  obtain ⟨s, matched, entered⟩ : ∃ s, s.matchedResults = [⟨0, distance⟩] ∧ enter
      (alone distance) ⟨(), .new (.fixed (params.lValue + 1)), []⟩ = pure s := by
    rw [enter_eq _ (Nat.le_add_left ..)]
    exact ⟨_, rfl, rfl⟩
  refine ⟨{ s with accessor := (), matchedResults := sort.fastDistance s.matchedResults }, ?_,
    fun fuel enough => ?_⟩
  · rw [matched]
    exact perm_singleton.mp (sort.fastDistance_perm _)
  · obtain ⟨fuel, rfl⟩ := Nat.exists_eq_succ_of_ne_zero enough.ne'
    rw [inlineFilterSearchInternal, entered]
    rfl

/-- The node is handed out if it is at the radius and the inner radius is not a number. -/
theorem search_alone (number : r.radius.isNan = false) {inner : F32}
    (given : r.innerRadius = some inner) (nan : inner.isNan = true) (lib : FloatLibrary)
    (sort : UnstableSort ℕ) : ∃ bound, ∀ fuel > bound, ∃ res,
      search (alone r.radius) r lib sort fuel none () = pure res ∧
        ⟨0, r.radius⟩ ∈ res.output := by
  obtain ⟨s, matched, first⟩ := search_first r.radius (toKnn r) lib sort
  have close : r.radius.ge r.radius = true := F32.ge_eq_true.mpr ⟨number, number, le_rfl⟩
  have within : matchedWithinRadius r s = [⟨0, r.radius⟩] := by
    simp [matchedWithinRadius, matched, close]
  have passes : reported r r.radius = true := by
    simp [reported, given, F32.ge, nan]
  refine ⟨(seeded r sort s).rangeFrontier.length, fun fuel enough => ?_⟩
  have second : ∃ stats, ∃ a, secondRound (alone r.radius) r sort fuel s =
      pure (stats, [⟨0, r.radius⟩], a) := by
    unfold secondRound
    split
    · obtain ⟨s', looped, same⟩ := loop_alone r.radius r (seeded r sort s) enough
      rw [looped, pure_bind, same]
      exact ⟨_, _, congrArg (fun matched => pure (_, matched, _)) within⟩
    · rw [within]
      exact ⟨_, _, rfl⟩
  obtain ⟨stats, a, second⟩ := second
  refine ⟨⟨stats, truncate r [⟨0, r.radius⟩],
    (truncate r [⟨0, r.radius⟩]).filter fun n => reported r n.distance, a⟩, ?_, ?_⟩
  · have begun := first fuel (by omega)
    unfold search
    rw [show (alone r.radius).numStartingPoints () = .ok 1 from rfl]
    simp only [liftM_ok, pure_bind]
    rw [show r.startingL = (toKnn r).lValue from rfl, begun]
    simp only [pure_bind, second]
  · have kept : truncate r [⟨0, r.radius⟩] = [(⟨0, r.radius⟩ : Neighbor ℕ)] := by
      unfold truncate
      split <;> rename_i bound
      · rfl
      · exact take_of_length_le (r.startingL_pos.trans (r.startingL_le _ bound))
    simp [kept, passes]

/-- A range search with a filter hands out accepted nodes between the radii only, each once and no
more than asked for, exactly if the inner radius is a number or the radius is none. -/
theorem search_safe_iff (r : Range) : Safe r ↔
    r.radius.isNan = true ∨ ∀ inner ∈ r.innerRadius, inner.isNan = false := by
  refine ⟨fun safe => ?_, safe⟩
  by_contra! wrong
  obtain ⟨number, inner, given, nan⟩ := wrong
  rw [ne_eq, Bool.not_eq_true] at number
  rw [ne_eq, Bool.not_eq_false] at nan
  set lib : FloatLibrary := ⟨fun _ => .nan, fun _ _ => .nan⟩
  obtain ⟨bound₁, found⟩ := search_alone number given nan lib stableSort
  obtain ⟨bound₂, ends⟩ := safe (alone r.radius) single _ _ (alone_honours r.radius) lib stableSort
    none ()
  obtain ⟨result, ran, member⟩ := found (max bound₁ bound₂ + 1) (by omega)
  obtain ⟨result', ran', outputs⟩ := ends (max bound₁ bound₂ + 1) (by omega)
  rw [ran] at ran'
  cases ran'
  have above := ((outputs result rfl).within _ member).2.2 inner given
  rw [F32.lt_eq_true] at above
  simp [above.1] at nan

/-- The inner radius is not a number; the only node, at distance zero, is handed out. -/
theorem search_ignores_inner_radius :
    (search (.ofGraph single (fun _ => .zero) (fun _ => true) [0])
      (Range.closestOnly .one .one (some ⟨0x7fc00000⟩) (by decide) (by decide))
      ⟨fun _ => .nan, fun _ _ => .nan⟩ stableSort 5 none ()).run.map (·.map (·.output)) =
        some (.ok [⟨0, .zero⟩]) ∧
      F32.lt ⟨0x7fc00000⟩ .zero = false :=
  ⟨by decide +kernel, by decide⟩

end FilteredRange

end DiskAnn
