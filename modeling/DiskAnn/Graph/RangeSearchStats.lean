import DiskAnn.Graph.RangeSearchRun

/-! # The statistics of a range search

The counters of the scratch space go on from the first round into the second. `Range::search` adds the
hops of the first round to them once more and leaves out the comparisons of the second, so that the
statistics are right only where no second round runs.
-/

namespace DiskAnn

open Fallible List SearchAccessor BitVec

variable {I σ E : Type} [DecidableEq I]

namespace SearchAccessor

variable {A : SearchAccessor I σ E} {s : σ × Tally}

omit [DecidableEq I] in
theorem counting_startPointDistances {reported : List (Neighbor I)} {s' : σ × Tally}
    (answered : A.counting.startPointDistances s = .ok (reported, s')) :
    s'.2 = ⟨s.2.cmps + reported.length, s.2.hops⟩ := by
  simp only [counting] at answered
  obtain ⟨answer, -, ⟨rfl, rfl⟩⟩ := except_bind_eq_ok.mp answered
  rfl

omit [DecidableEq I] in
theorem counting_expandBeam {ids : List I} {visited visited' : Finset I}
    {reported : List (Neighbor I)} {s' : σ × Tally}
    (answered : A.counting.expandBeam s ids visited = .ok (reported, visited', s')) :
    s'.2 = ⟨s.2.cmps + reported.length, s.2.hops + ids.length⟩ := by
  simp only [counting] at answered
  obtain ⟨answer, -, ⟨rfl, -, rfl⟩⟩ := except_bind_eq_ok.mp answered
  rfl

theorem counting_lawful {G : FiniteGraph I} {distance : I → F32} {starts : List I}
    (lawful : A.Lawful G distance starts) : A.counting.Lawful G distance starts where
  starting_points s := lawful.starting_points s.1
  start_point_distances s := by
    obtain ⟨reported, a, answered, reports⟩ := lawful.start_point_distances s.1
    exact ⟨reported, _, by simp only [counting, answered, bind, Except.bind]; rfl, reports⟩
  expand_beam s ids visited := by
    obtain ⟨reported, a, answered, reports⟩ := lawful.expand_beam s.1 ids visited
    exact ⟨reported, _, by simp only [counting, answered, bind, Except.bind]; rfl, reports⟩
  terminate_early s := lawful.terminate_early s.1

end SearchAccessor

/-! ## The first round -/

namespace Search

variable {A : SearchAccessor I σ E} {s s' : Search I (σ × Tally)}

/-- The counters are those of the accessor, and as many nodes were expanded as are on record. -/
structure Counted (s : Search I (σ × Tally)) : Prop where
  cmps : s.scratch.cmps = BitVec.ofNat 32 s.accessor.2.cmps
  hops : s.scratch.hops = BitVec.ofNat 32 s.accessor.2.hops
  record : s.accessor.2.hops = s.record.length

theorem Counted.enterStartPoints (counted : Counted s)
    (entered : enterStartPoints A.counting s = pure s') : Counted s' := by
  unfold Search.enterStartPoints at entered
  split at entered
  · obtain ⟨⟨reported, a⟩, answered, entered⟩ := bind_eq_pure.mp entered
    obtain ⟨best, -, entered⟩ := bind_eq_pure.mp entered
    have tally := counting_startPointDistances (liftM_except_eq_pure.mp answered)
    obtain rfl := pure_inj entered
    refine ⟨?_, ?_, ?_⟩
    · simp [tally, counted.cmps, ofNat_add]
    · simp [tally, counted.hops]
    · simp [tally, counted.record]
  · exact pure_inj entered ▸ counted

omit [DecidableEq I] in
/-- The beam and the record grow together. -/
theorem fillBeam_frame {s s' : Search I σ} {left : ℕ} (filled : fillBeam left s = some s') :
    s'.accessor = s.accessor ∧ s'.scratch.cmps = s.scratch.cmps ∧
      s'.scratch.hops = s.scratch.hops ∧
      s'.record.length + s.scratch.beamNodes.length =
        s.record.length + s'.scratch.beamNodes.length := by
  induction left generalizing s with
  | zero =>
    cases filled
    exact ⟨rfl, rfl, rfl, rfl⟩
  | succ left ih =>
    unfold fillBeam at filled
    split at filled
    · cases filled
    · cases filled
      exact ⟨rfl, rfl, rfl, rfl⟩
    · obtain ⟨accessor, cmps, hops, lengths⟩ := ih filled
      refine ⟨accessor, cmps, hops, ?_⟩
      simp only [length_append, length_singleton] at lengths
      omega

omit [DecidableEq I] in
theorem Counted.hop (counted : Counted s) {beamWidth : ℕ}
    (hopped : hop A.counting beamWidth s = pure s') : Counted s' := by
  obtain ⟨t, filled, hopped⟩ := bind_eq_pure.mp hopped
  obtain ⟨⟨reported, visited, a⟩, answered, hopped⟩ := bind_eq_pure.mp hopped
  obtain ⟨best, -, hopped⟩ := bind_eq_pure.mp hopped
  obtain ⟨accessor, cmps, hops, lengths⟩ := fillBeam_frame (liftM_option_eq_pure.mp filled)
  have tally := counting_expandBeam (liftM_except_eq_pure.mp answered)
  simp only [length_nil, add_zero] at accessor cmps hops lengths
  rw [accessor] at tally
  obtain rfl := pure_inj hopped
  refine ⟨?_, ?_, ?_⟩
  · simp [tally, cmps, counted.cmps, ofNat_add]
  · simp [tally, hops, counted.hops, ofNat_add]
  · simp [tally, lengths, counted.record]

omit [DecidableEq I] in
theorem Counted.loop (counted : Counted s) {beamWidth fuel : ℕ}
    (looped : loop A.counting beamWidth fuel s = pure s') : Counted s' := by
  induction fuel generalizing s with
  | zero => cases looped
  | succ fuel ih =>
    unfold Search.loop at looped
    split at looped
    · have kept : Counted { s with accessor := (A.counting.terminateEarly s.accessor).2 } :=
        ⟨counted.cmps, counted.hops, counted.record⟩
      dsimp only at looped
      split at looped
      · exact pure_inj looped ▸ kept
      · obtain ⟨t, hopped, looped⟩ := bind_eq_pure.mp looped
        exact ih (kept.hop hopped) looped
    · exact pure_inj looped ▸ counted

theorem Counted.searchInternal (counted : Counted s) {fuel : ℕ} {beamWidth : Option ℕ}
    {stats : InternalSearchStats}
    (searched : searchInternal A.counting fuel beamWidth s = pure (stats, s')) :
    Counted s' ∧ stats = ⟨s'.scratch.cmps, s'.scratch.hops, false⟩ := by
  obtain ⟨t, entered, searched⟩ := bind_eq_pure.mp searched
  obtain ⟨u, looped, searched⟩ := bind_eq_pure.mp searched
  obtain ⟨rfl, rfl⟩ := Prod.mk.inj (pure_inj searched)
  exact ⟨(counted.enterStartPoints entered).loop looped, rfl⟩

end Search

/-! ## Both rounds -/

namespace Range

variable {A : SearchAccessor I σ E} {r : Range} {s s' : RangeScratch I (σ × Tally)}

structure Counted (s : RangeScratch I (σ × Tally)) : Prop where
  cmps : s.cmps = BitVec.ofNat 32 s.accessor.2.cmps
  hops : s.hops = BitVec.ofNat 32 s.accessor.2.hops

omit [DecidableEq I] in
theorem Counted.hop (counted : Counted s) (hopped : r.hop A.counting s = pure s') : Counted s' := by
  obtain ⟨⟨reported, visited, a⟩, answered, hopped⟩ := bind_eq_pure.mp hopped
  have tally := counting_expandBeam (liftM_except_eq_pure.mp answered)
  dsimp only at hopped
  obtain ⟨kept, -, -, folded⟩ := r.foldl_take { s with
    accessor := a, visited, rangeFrontier := s.rangeFrontier.drop r.beamWidth } reported
  rw [folded] at hopped
  obtain rfl := pure_inj hopped
  refine ⟨?_, ?_⟩
  · simp [tally, counted.cmps, ofNat_add]
  · simp [tally, counted.hops, ofNat_add]

omit [DecidableEq I] in
theorem Counted.loop (counted : Counted s) {fuel : ℕ}
    (looped : r.loop A.counting fuel s = pure s') : Counted s' := by
  induction fuel generalizing s with
  | zero => cases looped
  | succ fuel ih =>
    unfold Range.loop at looped
    split at looped
    · obtain ⟨t, hopped, looped⟩ := bind_eq_pure.mp looped
      exact ih (counted.hop hopped) looped
    · exact pure_inj looped ▸ counted

/-- The first round counts right, and has no more results than the search list is long. -/
theorem firstRound_counted {fuel : ℕ} {pooled : Option (SearchScratch I)} {a : σ}
    {stats : InternalSearchStats}
    (ran : r.firstRound A.counting fuel pooled (a, ⟨0, 0⟩) = pure (stats, s)) :
    Counted s ∧ stats = ⟨s.cmps, s.hops, false⟩ ∧ s.inRange.length ≤ r.startingL := by
  obtain ⟨starts, -, ran⟩ := bind_eq_pure.mp ran
  obtain ⟨⟨initial, t⟩, searched, ran⟩ := bind_eq_pure.mp ran
  have fresh : Search.Counted (⟨(a, ⟨0, 0⟩), .searchScratch pooled r.startingL starts.length, []⟩ :
      Search I (σ × Tally)) := by
    rw [SearchScratch.searchScratch_eq]
    exact ⟨rfl, rfl, rfl⟩
  obtain ⟨counted, rfl⟩ := fresh.searchInternal searched
  obtain ⟨rfl, rfl⟩ := Prod.mk.inj (pure_inj ran)
  refine ⟨⟨counted.cmps, counted.hops⟩, rfl, ?_⟩
  exact (length_filter_le ..).trans (length_take_le ..)

/-- What the statistics are made of. -/
theorem search_counted {fuel : ℕ} {pooled : Option (SearchScratch I)} {a : σ}
    {res : RangeResult I (σ × Tally)}
    (ran : r.search A.counting fuel pooled (a, ⟨0, 0⟩) = pure res) :
    ∃ stats s, r.firstRound A.counting fuel pooled (a, ⟨0, 0⟩) = pure (stats, s) ∧
      (r.continues s.inRange.length = false →
        res.stats = stats ∧ res.accessor = s.accessor) ∧
      (r.continues s.inRange.length = true →
        res.stats.hops = stats.hops + BitVec.ofNat 32 res.accessor.2.hops) := by
  obtain ⟨⟨stats, s⟩, first, ran⟩ := bind_eq_pure.mp ran
  obtain ⟨⟨stats', s'⟩, second, ran⟩ := bind_eq_pure.mp ran
  obtain rfl := pure_inj ran
  refine ⟨stats, s, first, fun stops => ?_, fun goes => ?_⟩
  · unfold secondRound at second
    rw [stops] at second
    obtain ⟨rfl, rfl⟩ := Prod.mk.inj (pure_inj second)
    exact ⟨rfl, rfl⟩
  · unfold secondRound rangeSearchInternal at second
    rw [goes] at second
    obtain ⟨⟨rangeStats, t⟩, walked, second⟩ := bind_eq_pure.mp second
    obtain ⟨u, looped, walked⟩ := bind_eq_pure.mp walked
    obtain ⟨rfl, rfl⟩ := Prod.mk.inj (pure_inj walked)
    obtain ⟨rfl, rfl⟩ := Prod.mk.inj (pure_inj second)
    have begun := (firstRound_counted first).1
    have counted : Counted u := Counted.loop (s := { s with
      rangeFrontier := s.rangeFrontier ++ s.inRange.map (·.id) }) ⟨begun.cmps, begun.hops⟩ looped
    simp only [counted.hops]

/-- The statistics of every search report the whole search. -/
def Counts (r : Range) : Prop :=
  ∀ {I σ E : Type} [DecidableEq I] (A : SearchAccessor I σ E) (fuel : ℕ)
    (pooled : Option (SearchScratch I)) (a : σ) (result : RangeResult I (σ × Tally)),
    r.search A.counting fuel pooled (a, ⟨0, 0⟩) = pure result →
    result.stats.cmps = BitVec.ofNat 32 result.accessor.2.cmps ∧
      result.stats.hops = BitVec.ofNat 32 result.accessor.2.hops

theorem counts_of_stops (stops : ∀ found ≤ r.startingL, r.continues found = false) : r.Counts := by
  intro I σ E _ A fuel pooled a res ran
  obtain ⟨stats, s, first, stopped, -⟩ := search_counted ran
  obtain ⟨counted, rfl, few⟩ := firstRound_counted first
  obtain ⟨same, accessor⟩ := stopped (stops _ few)
  rw [same, accessor]
  exact ⟨counted.cmps, counted.hops⟩

/-! ## Where it fails -/

/-- Nodes without neighbors. -/
def islands (count : ℕ) : FiniteGraph ℕ where
  nodes := Finset.range count
  neighbors _ := []
  closed _ _ _ := nofun

/-- The first `near` of them are at distance zero, the others infinitely far away. -/
def islandDistance (near id : ℕ) : F32 := if id < near then .zero else .infinity

variable {near count : ℕ}

theorem islandDistance_number (near id : ℕ) : (islandDistance near id).isNan = false := by
  unfold islandDistance
  split <;> decide

theorem zero_ge_islandDistance (near id : ℕ) :
    F32.zero.ge (islandDistance near id) = decide (id < near) := by
  unfold islandDistance
  split <;> rename_i side
  · rw [decide_eq_true side]
    decide
  · rw [decide_eq_false side]
    decide

/-- Every node is expanded once, and the near ones are the results of the first round. -/
theorem firstRound_islands (r : Range) (zero : r.radius = .zero) (few : near ≤ r.startingL)
    (enough : near ≤ count) :
    ∃ bound stats s, s.inRange.length = near ∧ s.accessor.2.hops = count ∧ ∀ fuel > bound,
      r.firstRound (ofGraph (islands count) (islandDistance near)
        (range count)).counting fuel none ((), ⟨0, 0⟩) = pure (stats, s) := by
  have lawful := counting_lawful (ofGraph_lawful (islands count)
    (islandDistance near) (List.range count))
  obtain ⟨bound, s, q, stored, searching, done, ran⟩ := Search.searchInternal_searching
    lawful nodup_range (by simp [islands])
    (fun id _ => islandDistance_number near id) r.startingL_pos
    (show ∀ width ∈ some r.beamWidth, 1 ≤ width by simpa using r.beamWidth_pos) none ((), ⟨0, 0⟩)
  have visited : ∀ id, id ∈ s.scratch.visited ↔ id ∈ range count := by
    intro id
    rw [searching.discovered]
    simp [islands]
  obtain ⟨full, sorted, taken, nodup, all⟩ := searching.closest
  have perm : (full.map Slot.neighbor).Perm
      ((range count).map fun id => ⟨id, islandDistance near id⟩) := by
    refine (perm_ext_iff_of_nodup (Nodup.of_map _ nodup)
      (nodup_range.map fun _ _ same => congrArg Neighbor.id same)).mpr fun nbr => ?_
    rw [all, visited, mem_map]
    constructor
    · rintro ⟨mem, far⟩
      exact ⟨nbr.id, mem, by rw [← far]⟩
    · rintro ⟨id, mem, rfl⟩
      exact ⟨mem, rfl⟩
  have length : full.length = count := by simpa using perm.length_eq
  have whole : q.slots = full := by
    rw [taken]
    simp [length]
  have expanded : (s.record.map (·.neighbor.id)).Perm (List.range count) := by
    refine (perm_ext_iff_of_nodup searching.once nodup_range).mpr fun id => ?_
    rw [← visited]
    refine ⟨fun mem => (searching.seen id mem).2, fun known => ?_⟩
    have held : (⟨id, islandDistance near id⟩ : Neighbor ℕ) ∈ q.neighbors := by
      rw [SlotQueue.neighbors, whole]
      exact (all _).mpr ⟨known, rfl⟩
    exact searching.expanded_of_done done _ held
  have fresh : Search.Counted (⟨((), ⟨0, 0⟩), .searchScratch none r.startingL
      (List.range count).length, []⟩ : Search ℕ (Unit × Tally)) := ⟨rfl, rfl, rfl⟩
  have hops : s.accessor.2.hops = count := by
    rw [(fresh.searchInternal (ran (bound + 1) (Nat.lt_succ_self bound))).1.record]
    simpa using expanded.length_eq
  have results : ((s.scratch.best.iter.take r.startingL).filter
      fun n => r.radius.ge n.distance).length = near := by
    have queue : s.scratch.best.iter = full.map Slot.neighbor := by
      rw [stored, q.toQueue_iter, searching.fixed.searchParamL, whole]
      simp [length]
    have hits : (full.map Slot.neighbor).Pairwise fun a b =>
        r.radius.ge b.distance = true → r.radius.ge a.distance = true := by
      refine pairwise_map.mpr (sorted.imp_of_mem fun {a b} first _ before close => ?_)
      have number : a.neighbor.distance.isNan = false := by
        rw [((all a.neighbor).mp (mem_map_of_mem first)).2]
        exact islandDistance_number near _
      rw [F32.ge_eq_true] at close ⊢
      exact ⟨close.1, number, le_trans before close.2.2⟩
    rw [queue, filter_take_of_pairwise hits, length_take,
      (perm.filter fun n => r.radius.ge n.distance).length_eq, filter_map, length_map,
      zero]
    simp only [Function.comp_def, zero_ge_islandDistance]
    have below : (range count).filter (fun id => decide (id < near)) = List.range near := by
      obtain ⟨rest, rfl⟩ := Nat.exists_eq_add_of_le enough
      rw [range_add, filter_append, filter_eq_self.mpr (by simp),
        filter_eq_nil_iff.mpr (by simp), append_nil]
    rw [below, length_range, min_eq_right few]
  set inRange := (s.scratch.best.iter.take r.startingL).filter fun n => r.radius.ge n.distance
  refine ⟨bound, ⟨s.scratch.cmps, s.scratch.hops, false⟩, {
      accessor := s.accessor
      visited := (inRange.map (·.id)).toFinset
      rangeFrontier := []
      inRange
      hops := s.scratch.hops
      cmps := s.scratch.cmps }, results, hops, fun fuel enough => ?_⟩
  simp only [firstRound, lawful.starting_points, Search.liftM_ok, pure_bind, ran fuel enough]
  rfl

/-- With results that lead to a second round the hops of the first are counted twice. -/
theorem not_counts {found : ℕ} (r : Range) (zero : r.radius = .zero) (few : found ≤ r.startingL)
    (goes : r.continues found = true) : ¬ r.Counts := by
  intro counts
  set count := if found % 2 ^ 32 = 0 then found + 1 else found with chosen
  have enough : found ≤ count := by split at chosen <;> omega
  have odd : BitVec.ofNat 32 count ≠ 0 := by
    intro none
    have := congrArg BitVec.toNat none
    change count % 2 ^ 32 = 0 at this
    split at chosen <;> omega
  set A := ofGraph (islands count) (islandDistance found) (List.range count) with graph
  obtain ⟨bound₁, stats, s, results, hops, first⟩ := firstRound_islands r zero few enough
  obtain ⟨bound₂, _, _, _, -, -, -, ran⟩ := search_ranging
    (counting_lawful (ofGraph_lawful (islands count)
      (islandDistance found) (List.range count))).honours nodup_range (by simp [islands]) r none
    ((), ⟨0, 0⟩)
  set fuel := max bound₁ bound₂ + 1
  obtain ⟨-, res, searched, -⟩ := ran fuel (by omega)
  have right := (counts A fuel none () res searched).2
  obtain ⟨stats', s', first', -, twice⟩ := search_counted searched
  obtain ⟨rfl, rfl⟩ := Prod.mk.inj (pure_inj ((first fuel (by omega)).symm.trans first'))
  obtain ⟨counted, same, -⟩ := firstRound_counted first'
  rw [twice (results ▸ goes), same] at right
  have none : s.hops = 0 := by simpa using right
  rw [counted.hops, hops] at none
  exact odd none

end Range

end DiskAnn
