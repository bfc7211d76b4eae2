import DiskAnn.Data.Fallible
import DiskAnn.Graph.InlineFilter
import DiskAnn.Graph.SearchRun

/-! # Making the search list longer

The queue of a filtered search has room for the search list and the start points. `adapt` compares the
new size with the search list alone and then makes it the capacity of the queue: a size between the two
makes the queue shorter.
-/

namespace DiskAnn

open Fallible List FilteredAccessor SlotQueue NeighborPriorityQueue Decided Search

namespace InlineFilter

variable {I σ E : Type} [DecidableEq I] {A : FilteredAccessor I σ E} {lib : FloatLibrary}
  {params : Knn} {adaptiveL : Option AdaptiveL} {s s' : InlineFilter I σ} {q : SlotQueue I}
  {c : ℕ} {adaptive : AdaptiveL}

/-! ## One iteration -/

/-- What an iteration leaves that visits `beam`, with the queue `t` after that, and is reported
`reported`. -/
def expanded (s : InlineFilter I σ) (beam : List (Neighbor I)) (t : SlotQueue I)
    (reported : List (Decided I)) (visited : Finset I) (a : σ) : InlineFilter I σ where
  accessor := a
  scratch := {
    best := (t.insertAll (reported.map Decided.neighbor)).toQueue
    visited
    beamNodes := beam.map (·.id)
    cmps := s.scratch.cmps + BitVec.ofNat 32 reported.length
    hops := s.scratch.hops + BitVec.ofNat 32 (beam.map (·.id)).length }
  record := s.record ++ beam.map fun nbr => ⟨nbr, s.scratch.hops, s.scratch.cmps⟩
  matchedResults := s.matchedResults ++ Decided.accepted reported
  sampleVisited := s.sampleVisited + reported.length
  sampleMatched := s.sampleMatched + (Decided.accepted reported).length
  lAdjusted := s.lAdjusted

variable (A)

omit [DecidableEq I] in
/-- An iteration either leaves the loop or expands a beam. -/
theorem hop_eq (params : Knn) (stored : s.scratch.best = q.toQueue)
    (room : q.HasRoom) :
    (∃ s', s'.scratch.best = q.toQueue ∧ s'.scratch.visited = s.scratch.visited ∧
      s'.matchedResults = s.matchedResults ∧ hop A params s = pure (s', false) ∧
      ((A.terminateEarly s.accessor).1 = true ∨ q.toQueue.hasNotvisitedNode = false)) ∨
    ∃ beam t, q.Beam beam t ∧ beam ≠ [] ∧ hop A params s =
      liftM (A.expandBeamFiltered (A.terminateEarly s.accessor).2 (beam.map (·.id))
        s.scratch.visited) >>= fun answer =>
          pure (expanded s beam t answer.1 answer.2.1 answer.2.2, true) := by
  cases early : (A.terminateEarly s.accessor).1 with
  | true =>
    refine .inl ⟨{ s with accessor := (A.terminateEarly s.accessor).2 }, stored, rfl, rfl, ?_, .inl rfl⟩
    simp [hop, early]
  | false =>
    obtain ⟨beam, t, walked, nonempty, filled⟩ := fillBeam_eq
      (s := ⟨(A.terminateEarly s.accessor).2, { s.scratch with beamNodes := [] }, s.record⟩) stored
      params.beamWidth
    have inserted := (walked.hasRoom room).toQueue_insertAll
    rcases eq_or_ne beam [] with rfl | some
    · refine .inl ⟨{ s with
        accessor := (A.terminateEarly s.accessor).2
        scratch := { s.scratch with best := t.toQueue, beamNodes := [] }
        record := s.record }, ?_, rfl, rfl, ?_, .inr ?_⟩
      · cases walked
        rfl
      · simp [hop, early, filled, liftM_some]
      · refine eq_false_of_ne_true fun has => nonempty params.beamWidth_pos has rfl
    · refine .inr ⟨beam, t, walked, some, ?_⟩
      simp [hop, early, filled, liftM_some, expand, some, inserted, expanded]

theorem enter_eq (pos : 1 ≤ c) (a : σ) :
    enter A ⟨a, .new (.fixed c), []⟩ =
      liftM (A.startPointDistances a) >>= fun answer => pure {
        accessor := answer.2
        scratch := {
          best := ((empty c false).insertAll (answer.1.map neighbor)).toQueue
          visited := ∅ ∪ (answer.1.map (·.decision.intoInner)).toFinset
          beamNodes := []
          hops := 0
          cmps := 0 }
        record := []
        matchedResults := accepted answer.1
        sampleVisited := 0
        sampleMatched := 0
        lAdjusted := false } := by
  have room : (empty c false : SlotQueue I).HasRoom := .inr pos
  have inserted : ∀ nbrs : List (Neighbor I), (new c).insertAll nbrs =
      some ((empty c false).insertAll nbrs).toQueue := room.toQueue_insertAll
  simp [enter, SearchScratch.new, inserted, liftM_some]

/-! ## Whole runs -/

/-- The states at the head of the loop. -/
inductive Reaches (A : FilteredAccessor I σ E) (lib : FloatLibrary) (params : Knn)
    (adaptiveL : Option AdaptiveL) (start : Search I σ) : InlineFilter I σ → Prop
  | enter {s : InlineFilter I σ} : enter A start = pure s → Reaches A lib params adaptiveL start s
  | next {s t u : InlineFilter I σ} : Reaches A lib params adaptiveL start s →
      hop A params s = pure (t, true) → adapt lib params adaptiveL t = some u →
      Reaches A lib params adaptiveL start u

/-- The capacity of the queue up to the adaption, and what the samples can be. -/
structure Unadapted (c : ℕ) (s : InlineFilter I σ) : Prop where
  fixed : ∃ (q : SlotQueue I) (c' : ℕ), s.scratch.best = q.toQueue ∧ q.Fixed c' ∧ 0 < c' ∧
    (s.lAdjusted = false → c' = c)
  samples : s.sampleMatched ≤ s.sampleVisited

omit [DecidableEq I] in
theorem length_accepted_le (reported : List (Decided I)) :
    (accepted reported).length ≤ reported.length := by
  rw [accepted, length_map]
  exact length_filter_le ..

variable {A}

theorem Unadapted.enter (pos : 1 ≤ c) {a : σ}
    (entered : InlineFilter.enter A ⟨a, .new (.fixed c), []⟩ = pure s) : Unadapted c s := by
  rw [enter_eq A pos] at entered
  obtain ⟨answer, -, entered⟩ := bind_eq_pure.mp entered
  obtain rfl := pure_inj entered
  have empty : (empty c false : SlotQueue I).Fixed c := ⟨rfl, rfl, rfl⟩
  exact ⟨⟨_, c, rfl, empty.insertAll_fixed _, pos, fun _ => rfl⟩, le_rfl⟩

omit [DecidableEq I] in
theorem Unadapted.hop (unadapted : Unadapted c s)
    (hopped : InlineFilter.hop A params s = pure (s', true)) : Unadapted c s' := by
  obtain ⟨q, c', stored, fixed, pos, same⟩ := unadapted.fixed
  rcases hop_eq A params stored (.inr (fixed.capacity ▸ pos)) with
    ⟨t, -, -, -, left, -⟩ | ⟨beam, t, walked, -, went⟩
  · rw [left] at hopped
    cases pure_inj hopped
  · rw [went] at hopped
    obtain ⟨answer, -, hopped⟩ := bind_eq_pure.mp hopped
    obtain ⟨rfl, -⟩ := Prod.mk.inj (pure_inj hopped)
    refine ⟨⟨_, c', rfl, (walked.fixed fixed).insertAll_fixed _, pos, same⟩, ?_⟩
    exact Nat.add_le_add unadapted.samples (length_accepted_le answer.1)

omit [DecidableEq I] in
/-- What an adaption does. -/
theorem adapt_cases (adapted : adapt lib params (some adaptive) s = some s') :
    (s.lAdjusted = false ∧ adaptive.sampleCount ≤ s.sampleVisited ∧ ∃ newL,
      lib.computeAdaptiveL params.lValue s.sampleVisited s.sampleMatched adaptive.scaleFactor =
        some newL ∧ params.lValue < newL ∧ s' = { s with
          scratch := { s.scratch with best := s.scratch.best.reconfigure newL }
          lAdjusted := true }) ∨
    s' = s ∨ s' = { s with lAdjusted := true } := by
  simp only [adapt] at adapted
  split_ifs at adapted with due
  · obtain ⟨newL, computed, adapted⟩ := Option.bind_eq_some_iff.mp adapted
    split_ifs at adapted with longer
    · exact .inl ⟨due.1, due.2, newL, computed, longer, (Option.some.inj adapted).symm⟩
    · exact .inr (.inr (Option.some.inj adapted).symm)
  · exact .inr (.inl (Option.some.inj adapted).symm)

omit [DecidableEq I] in
theorem Unadapted.adapt (unadapted : Unadapted c s)
    (adapted : InlineFilter.adapt lib params (some adaptive) s = some s') : Unadapted c s' := by
  obtain ⟨q, c', stored, fixed, pos, same⟩ := unadapted.fixed
  rcases adapt_cases adapted with ⟨-, -, newL, -, longer, rfl⟩ | rfl | rfl
  · refine ⟨⟨q.reconfigure newL, newL, ?_, ⟨fixed.autoResizable, rfl, rfl⟩, by omega, nofun⟩,
      unadapted.samples⟩
    exact (congrArg (NeighborPriorityQueue.reconfigure · newL) stored).trans
      (q.toQueue_reconfigure newL)
  · exact unadapted
  · exact ⟨⟨q, c', stored, fixed, pos, nofun⟩, unadapted.samples⟩

theorem Unadapted.reaches (pos : 1 ≤ c) {a : σ}
    (reached : Reaches A lib params (some adaptive) ⟨a, .new (.fixed c), []⟩ s) :
    Unadapted c s := by
  induction reached with
  | enter entered => exact .enter pos entered
  | next _ hopped adapted ih => exact (ih.hop hopped).adapt adapted

/-- An adaption leaves the queue as long as it was, with all its entries. -/
def Retains (s s' : InlineFilter I σ) : Prop :=
  s.scratch.best.capacity ≤ s'.scratch.best.capacity ∧
    s'.scratch.best.neighbors = s.scratch.best.neighbors

/-- No adaption in any run takes entries from the queue. -/
def Keeps (lib : FloatLibrary) (params : Knn) (adaptive : AdaptiveL) (starts : ℕ) : Prop :=
  ∀ {I σ E : Type} [DecidableEq I] (A : FilteredAccessor I σ E) (a : σ)
    (pooled : Option (SearchScratch I)), A.numStartingPoints a = .ok starts →
    ∀ s t u : InlineFilter I σ, Reaches A lib params (some adaptive)
        ⟨a, .searchScratch pooled params.lValue starts, []⟩ s →
      hop A params s = pure (t, true) → adapt lib params (some adaptive) t = some u → Retains t u

omit [DecidableEq I] in
theorem retains_of_le {newL : ℕ} (stored : s.scratch.best = q.toQueue) (fixed : q.Fixed c)
    (longer : c ≤ newL) : Retains s { s with
      scratch := { s.scratch with best := s.scratch.best.reconfigure newL }
      lAdjusted := true } := by
  have all : q.slots.take newL = q.slots :=
    take_of_length_le (q.fits.trans (fixed.capacity.le.trans longer))
  refine ⟨?_, ?_⟩
  · rw [stored]
    exact fixed.capacity.le.trans longer
  · change (s.scratch.best.reconfigure newL).neighbors = _
    rw [stored, q.toQueue_reconfigure, toQueue_neighbors, toQueue_neighbors]
    exact congrArg (map Slot.neighbor) all

theorem keeps_of_sizes {starts : ℕ}
    (sizes : ∀ visited matched newL, adaptive.sampleCount ≤ visited → matched ≤ visited →
      lib.computeAdaptiveL params.lValue visited matched adaptive.scaleFactor = some newL →
      newL ≤ params.lValue ∨ params.lValue + starts ≤ newL) : Keeps lib params adaptive starts := by
  intro I σ E _ A a pooled counted s t u reached hopped adapted
  have pos : 1 ≤ params.lValue + starts := by
    have := params.lValue_pos
    omega
  rw [SearchScratch.searchScratch_eq] at reached
  have unadapted := (Unadapted.reaches pos reached).hop hopped
  obtain ⟨q, c, stored, fixed, -, same⟩ := unadapted.fixed
  rcases adapt_cases adapted with ⟨first, enough, newL, computed, longer, rfl⟩ | rfl | rfl
  · refine retains_of_le stored fixed ?_
    rw [same first]
    exact (sizes _ _ _ enough unadapted.samples computed).resolve_left (not_le.mpr longer)
  · exact ⟨le_rfl, rfl⟩
  · exact ⟨le_rfl, rfl⟩

end InlineFilter

/-! ## Where it fails -/

namespace FilteredAccessor

variable {I : Type} [DecidableEq I]

/-- What the callback is given for a neighbor. -/
def decide (filter : I → Bool) (nbr : Neighbor I) : Decided I :=
  ⟨if filter nbr.id then .accept nbr.id else .reject nbr.id, nbr.distance⟩

variable (filter : I → Bool)

omit [DecidableEq I] in
@[simp] theorem neighbor_decide (nbr : Neighbor I) :
    (decide filter nbr).neighbor = nbr := by
  cases kept : filter nbr.id <;> simp [decide, Decided.neighbor, Decision.intoInner, kept]

omit [DecidableEq I] in
theorem isAccept_decide (nbr : Neighbor I) :
    (decide filter nbr).decision.isAccept = filter nbr.id := by
  cases kept : filter nbr.id <;> simp [decide, Decision.isAccept, kept]

/-- The accessor of a graph, with a filter. -/
def ofGraph (G : FiniteGraph I) (distance : I → F32) (filter : I → Bool) (starts : List I) :
    FilteredAccessor I Unit Empty where
  numStartingPoints _ := .ok starts.length
  startPointDistances _ := .ok (starts.map fun id => decide filter ⟨id, distance id⟩, ())
  expandBeamFiltered _ ids visited :=
    let (reported, visited) := SearchAccessor.expandFrom distance (ids.flatMap G.neighbors) visited
    .ok (reported.map (decide filter), visited, ())
  terminateEarly _ := (false, ())

variable (nbrs : List (Neighbor I))

omit [DecidableEq I] in
theorem neighbors_decide :
    (nbrs.map (decide filter)).map neighbor = nbrs := by
  rw [map_map]
  exact (map_congr_left fun nbr _ => neighbor_decide filter nbr).trans (map_id nbrs)

omit [DecidableEq I] in
theorem ids_decide :
    (nbrs.map (decide filter)).map (·.decision.intoInner) = nbrs.map (·.id) := by
  have mapped := congrArg (map Neighbor.id) (neighbors_decide filter nbrs)
  rwa [map_map] at mapped

omit [DecidableEq I] in
theorem accepted_decide :
    accepted (nbrs.map (decide filter)) = nbrs.filter fun nbr => filter nbr.id := by
  induction nbrs with
  | nil => rfl
  | cons nbr nbrs ih =>
    unfold accepted at ih ⊢
    cases kept : filter nbr.id <;>
      simp [isAccept_decide, kept, ih]

end FilteredAccessor

namespace InlineFilter

/-- Start points whose neighbors are all the leaves. -/
def star (starts leaves : ℕ) : FiniteGraph ℕ where
  nodes := Finset.range (starts + leaves)
  neighbors id := if id < starts then (range leaves).map (starts + ·) else []
  closed id _ neighbor member := by
    split_ifs at member
    · obtain ⟨leaf, listed, rfl⟩ := mem_map.mp member
      simpa using listed
    · cases member

theorem star_neighbors {starts leaves id : ℕ} (inside : id < starts) :
    (star starts leaves).neighbors id = (range leaves).map (starts + ·) := if_pos inside

/-- The leaves, all at distance zero. -/
def leafNeighbors (starts leaves : ℕ) : List (Neighbor ℕ) :=
  (range leaves).map fun leaf => ⟨starts + leaf, .zero⟩

theorem nodup_leafNeighbors (starts leaves : ℕ) : (leafNeighbors starts leaves).Nodup :=
  nodup_range.map fun _ _ same => by simpa using congrArg Neighbor.id same

/-- The first leaves are accepted. -/
def firstLeaves (starts matched id : ℕ) : Bool := id < starts + matched

variable {starts visited matched : ℕ}

/-- Whatever the beam is, all leaves are reported. -/
theorem expandFrom_star (visited : ℕ) {ids : List ℕ} (nonempty : ids ≠ []) (inside : ∀ id ∈ ids, id < starts) :
    (SearchAccessor.expandFrom (fun _ => .zero) (ids.flatMap (star starts visited).neighbors)
      (Finset.range starts)).1.Perm (leafNeighbors starts visited) := by
  obtain ⟨nodup, mem_iff⟩ := SearchAccessor.expandFrom_reports (fun _ => F32.zero)
    (ids.flatMap (star starts visited).neighbors) (Finset.range starts)
  refine (perm_ext_iff_of_nodup (List.Nodup.of_map _ nodup)
    (nodup_leafNeighbors starts visited)).mpr fun nbr => ?_
  rw [mem_iff, leafNeighbors, mem_map, mem_flatMap]
  constructor
  · rintro ⟨far, -, id, mem, edge⟩
    rw [star_neighbors (inside id mem)] at edge
    obtain ⟨leaf, listed, same⟩ := mem_map.mp edge
    exact ⟨leaf, listed, by rw [same, ← far]⟩
  · rintro ⟨leaf, listed, rfl⟩
    obtain ⟨id, rest, rfl⟩ := exists_cons_of_ne_nil nonempty
    refine ⟨rfl, by simp, id, mem_cons_self, ?_⟩
    rw [star_neighbors (inside id mem_cons_self)]
    exact mem_map_of_mem listed

theorem length_accepted_leaves (fewer : matched ≤ visited) :
    ((leafNeighbors starts visited).filter fun nbr => firstLeaves starts matched nbr.id).length =
      matched := by
  obtain ⟨rest, rfl⟩ := Nat.exists_eq_add_of_le fewer
  rw [leafNeighbors, filter_map, length_map, range_add, filter_append,
    filter_eq_self.mpr (by simp [firstLeaves]), filter_eq_nil_iff.mpr
      (by simp [firstLeaves]), append_nil, length_range]

/-- The start points are left to visit. -/
theorem hasNotvisited_of_start {I : Type} [DecidableEq I] {G : FiniteGraph I} {distance : I → F32}
    {starts : List I} {c : ℕ} {q : SlotQueue I} {visited : Finset I} (pos : 1 ≤ c)
    (started : Searching G distance starts c q visited []) (some : visited.Nonempty) :
    q.toQueue.hasNotvisitedNode = true := by
  obtain ⟨full, -, taken, -, all⟩ := started.closest
  obtain ⟨id, known⟩ := some
  have listed : full ≠ [] := by
    rintro rfl
    exact nomatch (all ⟨id, distance id⟩).mpr ⟨known, rfl⟩
  obtain ⟨slot, rest, rfl⟩ := exists_cons_of_ne_nil listed
  obtain ⟨c, rfl⟩ := Nat.exists_eq_add_of_le' pos
  rw [take_succ_cons] at taken
  have flag : slot.visited = false := by
    refine eq_false_of_ne_true fun flag => ?_
    exact nomatch started.flagged slot (taken ▸ mem_cons_self) flag
  have cursor : q.cursor = 0 := by
    rw [started.settled, taken, findIdx_cons]
    simp [flag]
  have length : 0 < q.slots.length := by simp [taken]
  have param := started.fixed.searchParamL
  simp [hasNotvisitedNode, toQueue, cursor, length, param]

theorem enter_star (params : Knn) (filter : ℕ → Bool) (starts leaves : ℕ) :
    ∃ s, ∃ q : SlotQueue ℕ,
      enter (.ofGraph (star starts leaves) (fun _ => .zero) filter (range starts))
        ⟨(), .new (.fixed (params.lValue + starts)), []⟩ = pure s ∧
      s.scratch.best = q.toQueue ∧
      Searching (star starts leaves) (fun _ => .zero) (List.range starts)
        (params.lValue + starts) q (Finset.range starts) [] ∧
      s.scratch.visited = Finset.range starts ∧ s.lAdjusted = false ∧ s.sampleVisited = 0 ∧
      s.sampleMatched = 0 := by
  have room : 1 ≤ params.lValue + starts := le_add_right params.lValue_pos
  have reports : ((range starts).map fun id => (⟨id, F32.zero⟩ : Neighbor ℕ)).Perm
      ((range starts).map fun id => ⟨id, (fun _ => F32.zero) id⟩) := .refl _
  have started := Searching.start (G := star starts leaves) room nodup_range
    (fun id listed => by simp [star] at listed ⊢; omega) (fun _ _ => by decide) reports
  have known : ∅ ∪ (((List.range starts).map fun id => (⟨id, F32.zero⟩ : Neighbor ℕ)).map
      (·.id)).toFinset = Finset.range starts := by
    ext id
    simp
  have entered := enter_eq (.ofGraph (star starts leaves) (fun _ => .zero) filter (List.range starts))
    room ()
  have answered : (ofGraph (star starts leaves) (fun _ => .zero) filter
      (range starts)).startPointDistances () = .ok (((List.range starts).map fun id =>
        (⟨id, F32.zero⟩ : Neighbor ℕ)).map (decide filter), ()) := by
    simp [ofGraph]
  rw [answered, liftM_ok, pure_bind] at entered
  simp only [neighbors_decide, ids_decide, known] at entered
  exact ⟨_, _, entered, rfl, known ▸ started, rfl, rfl, rfl, rfl⟩

/-- One iteration sees any number of nodes, of which any number are accepted. -/
theorem hop_star (params : Knn) (starts : ℕ) (pos : 1 ≤ starts) (fewer : matched ≤ visited) :
    ∃ s t, ∃ q : SlotQueue ℕ,
      enter (.ofGraph (star starts visited) (fun _ => .zero) (firstLeaves starts matched)
        (range starts)) ⟨(), .new (.fixed (params.lValue + starts)), []⟩ = pure s ∧
      hop (.ofGraph (star starts visited) (fun _ => .zero) (firstLeaves starts matched)
        (range starts)) params s = pure (t, true) ∧
      t.scratch.best = q.toQueue ∧ q.Fixed (params.lValue + starts) ∧ t.lAdjusted = false ∧
      t.sampleVisited = visited ∧ t.sampleMatched = matched := by
  obtain ⟨s, q, entered, stored, started, known, fresh, none, unmatched⟩ :=
    enter_star params (firstLeaves starts matched) starts visited
  have room : 1 ≤ params.lValue + starts := le_add_right params.lValue_pos
  have has := hasNotvisited_of_start room started ⟨0, Finset.mem_range.mpr pos⟩
  rcases hop_eq (.ofGraph (star starts visited) (fun _ => .zero) (firstLeaves starts matched)
    (List.range starts)) params stored started.room with
    ⟨t, -, -, -, -, early | idle⟩ | ⟨beam, t, walked, nonempty, went⟩
  · cases early
  · rw [has] at idle
    cases idle
  · have inside : ∀ id ∈ beam.map (·.id), id < starts := by
      intro id mem
      obtain ⟨nbr, listed, rfl⟩ := mem_map.mp mem
      exact Finset.mem_range.mp (started.held nbr (walked.subset nbr listed)).1
    have reported := expandFrom_star visited (by simpa using nonempty) inside
    rw [known] at went
    refine ⟨s, _, t.insertAll _, entered, went, rfl,
      (walked.fixed started.fixed).insertAll_fixed _, fresh, ?_, ?_⟩
    · change s.sampleVisited + (map _ _).length = visited
      rw [none, length_map, reported.length_eq, leafNeighbors, length_map,
        length_range, zero_add]
    · change s.sampleMatched + (accepted (map _ _)).length = matched
      rw [unmatched, accepted_decide, (reported.filter _).length_eq,
        length_accepted_leaves fewer, zero_add]

/-- No adaption makes the queue shorter, for any graph, filter and accessor, just when no new size
falls between the search list and the capacity of the queue. -/
theorem adapt_keeps_iff (lib : FloatLibrary) (params : Knn) (adaptive : AdaptiveL) (starts : ℕ) :
    Keeps lib params adaptive starts ↔
      ∀ visited matched newL, adaptive.sampleCount ≤ visited → matched ≤ visited →
        lib.computeAdaptiveL params.lValue visited matched adaptive.scaleFactor = some newL →
        newL ≤ params.lValue ∨ params.lValue + starts ≤ newL := by
  constructor
  · intro keeps visited matched newL enough fewer computed
    by_contra between
    rw [not_or, not_le] at between
    obtain ⟨s, t, q, entered, hopped, stored, fixed, fresh, rfl, rfl⟩ :=
      hop_star params starts (by omega) fewer
    have reached : Reaches _ lib params (some adaptive) _ s := .enter entered
    have adapted : adapt lib params (some adaptive) t = some { t with
        scratch := { t.scratch with best := t.scratch.best.reconfigure newL }
        lAdjusted := true } := by
      simp only [adapt]
      rw [if_pos ⟨fresh, enough⟩, computed]
      exact if_pos between.1
    have counted : (FilteredAccessor.ofGraph (star starts t.sampleVisited) (fun _ => .zero)
        (firstLeaves starts t.sampleMatched) (List.range starts)).numStartingPoints () =
          .ok starts := by
      simp [FilteredAccessor.ofGraph]
    have longer := (keeps _ () none counted s t _ reached hopped adapted).1
    rw [stored] at longer
    change q.capacity ≤ newL at longer
    rw [fixed.capacity] at longer
    omega
  · exact fun sizes {_ _ _ _} => keeps_of_sizes sizes

/-- Three start points, a search list of one and a scale factor of `2.0`: of four entries the adaption
leaves two. No leaf is accepted, so that neither function of the library is called. -/
theorem adapt_drops_entries :
    (do
      let s ← enter (.ofGraph (star 3 1) (fun _ => .zero) (firstLeaves 3 0) [0, 1, 2])
        ⟨(), .new (.fixed (1 + 3)), []⟩
      let (t, _) ← hop (.ofGraph (star 3 1) (fun _ => .zero) (firstLeaves 3 0) [0, 1, 2])
        ⟨1, 1, le_rfl, le_rfl⟩ s
      let u ← liftM (adapt ⟨fun _ => .nan, fun _ _ => .nan⟩ ⟨1, 1, le_rfl, le_rfl⟩
        (some ⟨1, .two, by decide, by decide⟩) t)
      pure (t.scratch.best.neighbors.map (·.id), u.scratch.best.neighbors.map (·.id)) :
        ExceptT (AnnError Empty) Option (List ℕ × List ℕ)).run = some (.ok ([3, 2, 1, 0], [3, 2])) := by
  decide +kernel

end InlineFilter

end DiskAnn
