import DiskAnn.Data.Fallible
import DiskAnn.Graph.RangeSearch
import DiskAnn.Graph.SearchRun

/-! # What a range search finds

The second round keeps the nodes it has seen within the scaled radius and walks on from them until
none is left to walk on from. Without a bound on the results, these are closed under neighbors within
the scaled radius. That includes those within the radius itself only if scaling does not lower it,
which it does for a radius below zero.
-/

namespace DiskAnn

open Fallible List

namespace Range

variable {I σ E : Type} [DecidableEq I] {A : SearchAccessor I σ E} {G : FiniteGraph I}
  {distance : I → F32} {starts : List I} {r : Range} {s : RangeScratch I σ}

/-- The radius within which the second round walks on. -/
def walkRadius (r : Range) : F32 := r.radius.mul r.rangeSlack

/-! ## One hop -/

omit [DecidableEq I] in
/-- What is kept of a reported neighbor. -/
theorem take_eq (r : Range) (s : RangeScratch I σ) (n : Neighbor I) :
    ∃ kept, kept.Sublist ([n].filter fun n => r.walkRadius.ge n.distance) ∧
      (r.maxReturned = none → kept = [n].filter fun n => r.walkRadius.ge n.distance) ∧
      r.take s n = { s with
        inRange := s.inRange ++ kept
        rangeFrontier := s.rangeFrontier ++ kept.map (·.id) } := by
  unfold take
  split_ifs with taken
  · rw [Bool.and_eq_true] at taken
    rw [filter_singleton, walkRadius, taken.1]
    exact ⟨[n], .refl _, fun _ => rfl, rfl⟩
  · refine ⟨[], nil_sublist _, fun unbounded => ?_, by simp⟩
    have far : r.walkRadius.ge n.distance = false := by simpa [room, unbounded, walkRadius] using taken
    rw [filter_singleton, far]
    rfl

omit [DecidableEq I] in
/-- What the loop over the reported neighbors keeps of them. -/
theorem foldl_take (r : Range) (s : RangeScratch I σ) (neighbors : List (Neighbor I)) :
    ∃ kept, kept.Sublist (neighbors.filter fun n => r.walkRadius.ge n.distance) ∧
      (r.maxReturned = none → kept = neighbors.filter fun n => r.walkRadius.ge n.distance) ∧
      neighbors.foldl r.take s = { s with
        inRange := s.inRange ++ kept
        rangeFrontier := s.rangeFrontier ++ kept.map (·.id) } := by
  induction neighbors generalizing s with
  | nil => exact ⟨[], .refl _, fun _ => rfl, by simp⟩
  | cons n neighbors ih =>
    obtain ⟨kept₁, sub₁, all₁, taken⟩ := take_eq r s n
    obtain ⟨kept₂, sub₂, all₂, folded⟩ := ih (r.take s n)
    rw [← singleton_append, filter_append]
    refine ⟨kept₁ ++ kept₂, sub₁.append sub₂, fun unbounded => ?_, ?_⟩
    · rw [all₁ unbounded, all₂ unbounded]
    · rw [singleton_append, foldl_cons, folded, taken]
      simp

/-- The state of a second round that began with the results `first`. -/
structure Ranging (G : FiniteGraph I) (distance : I → F32) (r : Range) (first : List (Neighbor I))
    (s : RangeScratch I σ) : Prop where
  inside : s.visited ⊆ G.nodes
  begun : first ⊆ s.inRange
  distinct : (s.inRange.map (·.id)).Nodup
  held : ∀ nbr ∈ s.inRange, nbr.id ∈ s.visited ∧ nbr.distance = distance nbr.id
  waiting : ∀ id ∈ s.rangeFrontier, id ∈ s.visited
  walked : ∀ nbr ∈ s.inRange, nbr.id ∈ s.rangeFrontier ∨ ∀ id ∈ G.neighbors nbr.id, id ∈ s.visited
  kept : r.maxReturned = none → ∀ id ∈ s.visited, r.walkRadius.ge (distance id) = true →
    id ∈ s.inRange.map (·.id)
  origin : ∀ nbr ∈ s.inRange, nbr ∈ first ∨ r.walkRadius.ge nbr.distance = true

/-- How far the second round can still go. -/
def remaining (G : FiniteGraph I) (s : RangeScratch I σ) : ℕ :=
  2 * (G.nodes.card - s.visited.card) + s.rangeFrontier.length

variable {first reported kept : List (Neighbor I)}

theorem reported_inside (ranging : Ranging G distance r first s)
    (reports : Reports G distance (s.rangeFrontier.take r.beamWidth) s.visited reported) :
    s.visited ∪ (reported.map (·.id)).toFinset ⊆ G.nodes := by
  refine Finset.union_subset ranging.inside fun id mem => ?_
  obtain ⟨nbr, new, rfl⟩ := mem_map.mp (mem_toFinset.mp mem)
  obtain ⟨-, -, other, expanded, edge⟩ := (reports.mem_iff nbr).mp new
  exact G.closed _ (ranging.inside (ranging.waiting other (mem_of_mem_take expanded))) _ edge

/-- What a hop leaves, before it counts. -/
def walkOn (s : RangeScratch I σ) (r : Range) (a : σ) (reported kept : List (Neighbor I)) :
    RangeScratch I σ :=
  { s with
    accessor := a
    visited := s.visited ∪ (reported.map (·.id)).toFinset
    inRange := s.inRange ++ kept
    rangeFrontier := s.rangeFrontier.drop r.beamWidth ++ kept.map (·.id)
    cmps := s.cmps + BitVec.ofNat 32 reported.length
    hops := s.hops + BitVec.ofNat 32 (s.rangeFrontier.take r.beamWidth).length }

theorem hop_eq (honours : A.Honours G distance starts) (r : Range) (s : RangeScratch I σ) :
    ∃ a reported kept, Reports G distance (s.rangeFrontier.take r.beamWidth) s.visited reported ∧
      kept.Sublist (reported.filter fun n => r.walkRadius.ge n.distance) ∧
      (r.maxReturned = none → kept = reported.filter fun n => r.walkRadius.ge n.distance) ∧
      r.hop A s = pure (walkOn s r a reported kept) := by
  obtain ⟨reported, a, expanded, reports⟩ :=
    honours.expand_beam s.accessor (s.rangeFrontier.take r.beamWidth) s.visited
  obtain ⟨kept, sub, all, folded⟩ := r.foldl_take { s with
    accessor := a
    visited := s.visited ∪ (reported.map (·.id)).toFinset
    rangeFrontier := s.rangeFrontier.drop r.beamWidth } reported
  refine ⟨a, reported, kept, reports, sub, all, ?_⟩
  simp only [hop, expanded, Search.liftM_ok, pure_bind, folded, walkOn]

theorem Ranging.walkOn (ranging : Ranging G distance r first s) (a : σ)
    (reports : Reports G distance (s.rangeFrontier.take r.beamWidth) s.visited reported)
    (sub : kept.Sublist (reported.filter fun n => r.walkRadius.ge n.distance))
    (all : r.maxReturned = none → kept = reported.filter fun n => r.walkRadius.ge n.distance) :
    Ranging G distance r first (Range.walkOn s r a reported kept) where
  inside := reported_inside ranging reports
  begun nbr member := mem_append_left _ (ranging.begun member)
  distinct := by
    have once := (reports.nodup.sublist ((sub.trans filter_sublist).map (·.id)))
    change ((s.inRange ++ kept).map (·.id)).Nodup
    rw [map_append]
    refine ranging.distinct.append once fun id old new => ?_
    obtain ⟨held, member, rfl⟩ := mem_map.mp old
    obtain ⟨nbr, added, same⟩ := mem_map.mp new
    have fresh := ((reports.mem_iff nbr).mp (mem_of_mem_filter (sub.subset added))).2.1
    exact fresh (same ▸ (ranging.held held member).1)
  held nbr member := by
    rcases mem_append.mp member with old | new
    · exact ⟨Finset.mem_union_left _ (ranging.held nbr old).1, (ranging.held nbr old).2⟩
    · have listed := mem_of_mem_filter (sub.subset new)
      exact ⟨Finset.mem_union_right _ (mem_toFinset.mpr (mem_map_of_mem listed)),
        ((reports.mem_iff nbr).mp listed).1⟩
  waiting id member := by
    rcases mem_append.mp member with old | new
    · exact Finset.mem_union_left _ (ranging.waiting id (mem_of_mem_drop old))
    · refine Finset.mem_union_right _ (mem_toFinset.mpr ?_)
      exact (sub.trans filter_sublist).map (·.id) |>.subset new
  walked nbr member := by
    rcases mem_append.mp member with old | new
    · rcases ranging.walked nbr old with waits | done
      · rw [← take_append_drop r.beamWidth s.rangeFrontier, mem_append] at waits
        rcases waits with beam | later
        · right
          intro id edge
          by_cases known : id ∈ s.visited
          · exact Finset.mem_union_left _ known
          · refine Finset.mem_union_right _ (mem_toFinset.mpr (mem_map.mpr
              ⟨⟨id, distance id⟩, (reports.mem_iff _).mpr ⟨rfl, known, nbr.id, beam, edge⟩, rfl⟩))
        · exact .inl (mem_append_left _ later)
      · exact .inr fun id edge => Finset.mem_union_left _ (done id edge)
    · exact .inl (mem_append_right _ (mem_map_of_mem new))
  kept unbounded id known near := by
    change id ∈ (s.inRange ++ kept).map (·.id)
    rw [map_append, mem_append]
    rcases Finset.mem_union.mp known with old | new
    · exact .inl (ranging.kept unbounded id old near)
    · obtain ⟨nbr, listed, rfl⟩ := mem_map.mp (mem_toFinset.mp new)
      rw [all unbounded]
      refine .inr (mem_map_of_mem (mem_filter.mpr ⟨listed, ?_⟩))
      rwa [((reports.mem_iff nbr).mp listed).1]
  origin nbr member := by
    rcases mem_append.mp member with old | new
    · exact ranging.origin nbr old
    · exact .inr (by simpa using (mem_filter.mp (sub.subset new)).2)

theorem Ranging.remaining_lt (ranging : Ranging G distance r first s) (a : σ)
    (nonempty : s.rangeFrontier ≠ [])
    (reports : Reports G distance (s.rangeFrontier.take r.beamWidth) s.visited reported)
    (sub : kept.Sublist (reported.filter fun n => r.walkRadius.ge n.distance)) :
    remaining G (Range.walkOn s r a reported kept) < remaining G s := by
  have fresh : Disjoint s.visited (reported.map (·.id)).toFinset := by
    rw [Finset.disjoint_right]
    intro id mem
    obtain ⟨nbr, new, rfl⟩ := mem_map.mp (mem_toFinset.mp mem)
    exact ((reports.mem_iff nbr).mp new).2.1
  have card : (s.visited ∪ (reported.map (·.id)).toFinset).card =
      s.visited.card + reported.length := by
    rw [Finset.card_union_of_disjoint fresh, toFinset_card_of_nodup reports.nodup,
      length_map]
  have bound := Finset.card_le_card (reported_inside ranging reports)
  have few := (sub.trans filter_sublist).length_le
  have pos := length_pos_iff.mpr nonempty
  have wide := r.beamWidth_pos
  change 2 * (G.nodes.card - (s.visited ∪ (reported.map (·.id)).toFinset).card) +
    (s.rangeFrontier.drop r.beamWidth ++ kept.map (·.id)).length < _
  rw [length_append, length_drop, length_map, remaining]
  omega

/-! ## The loop -/

/-- The second round ends when no node is left to walk on from, or no result may be added. -/
theorem loop_ranging (honours : A.Honours G distance starts) (ranging : Ranging G distance r first s) :
    ∃ s', (∀ fuel, remaining G s < fuel → r.loop A fuel s = pure s') ∧
      Ranging G distance r first s' ∧
      (s'.rangeFrontier = [] ∨ r.room s'.inRange.length = false) := by
  induction bound : remaining G s using Nat.strong_induction_on generalizing s with
  | _ n ih =>
    by_cases goes : s.rangeFrontier ≠ [] ∧ r.room s.inRange.length = true
    · obtain ⟨a, reported, kept, reports, sub, all, hopped⟩ := hop_eq honours r s
      have less := ranging.remaining_lt a goes.1 reports sub
      obtain ⟨s', looped, ranging', ended⟩ :=
        ih _ (bound ▸ less) (ranging.walkOn a reports sub all) rfl
      refine ⟨s', fun fuel enough => ?_, ranging', ended⟩
      obtain ⟨fuel, rfl⟩ := Nat.exists_eq_add_one_of_ne_zero (Nat.ne_zero_of_lt enough)
      rw [loop, if_pos goes, hopped]
      exact looped fuel (by omega)
    · refine ⟨s, fun fuel enough => ?_, ranging, ?_⟩
      · obtain ⟨fuel, rfl⟩ := Nat.exists_eq_add_one_of_ne_zero (Nat.ne_zero_of_lt enough)
        rw [loop, if_neg goes]
      · rw [not_and_or, not_not, Bool.not_eq_true] at goes
        exact goes

/-- A path to the second node on which all nodes after the first are within the radius. -/
def Within (G : FiniteGraph I) (distance : I → F32) (radius : F32) : I → I → Prop :=
  Relation.ReflTransGen fun a b => b ∈ G.neighbors a ∧ radius.ge (distance b) = true

omit [DecidableEq I] in
/-- At the end the results are closed under neighbors within a radius that is walked through. -/
theorem Ranging.mem_of_within (ranging : Ranging G distance r first s)
    (unbounded : r.maxReturned = none) (ended : s.rangeFrontier = [])
    (wide : r.walkRadius.ge r.radius = true) {nbr : Neighbor I} (mem : nbr ∈ first) {id : I}
    (path : Within G distance r.radius nbr.id id) : id ∈ s.inRange.map (·.id) := by
  induction path with
  | refl => exact mem_map_of_mem (ranging.begun mem)
  | tail _ edge ih =>
    obtain ⟨held, listed, rfl⟩ := mem_map.mp ih
    rcases ranging.walked held listed with waits | done
    · rw [ended] at waits
      cases waits
    · exact ranging.kept unbounded _ (done _ edge.1) (F32.ge_trans wide edge.2)

/-! ## The search -/

/-- The first round ends, with results that are nodes at their distances, each once. -/
theorem firstRound_ranging (honours : A.Honours G distance starts) (distinct : starts.Nodup)
    (inside : ∀ id ∈ starts, id ∈ G.nodes) (r : Range) (pooled : Option (SearchScratch I)) (a : σ) :
    ∃ bound s, ∃ stats : InternalSearchStats, stats.rangeSearchSecondRound = false ∧
      (∀ nbr ∈ s.inRange, r.radius.ge nbr.distance = true) ∧ s.rangeFrontier = [] ∧
      Ranging G distance r s.inRange { s with rangeFrontier := s.inRange.map (·.id) } ∧
      ∀ fuel, bound < fuel → r.firstRound A fuel pooled a = pure (stats, s) := by
  obtain ⟨bound, s, q, stored, explored, ran⟩ := Search.searchInternal_explored honours distinct
    inside r.startingL_pos r.beamWidth_pos pooled a
  set inRange := (s.scratch.best.iter.take r.startingL).filter fun n => r.radius.ge n.distance
    with selected
  have sub : inRange.Sublist q.neighbors := by
    rw [selected, stored, q.toQueue_iter]
    exact filter_sublist.trans ((take_sublist ..).trans ((take_sublist ..).map _))
  have ids : (inRange.map (·.id)).Nodup := by
    refine List.Nodup.sublist (sub.map _) ?_
    rw [← Search.Explored.ids_eq]
    exact explored.distinct
  have known : ∀ nbr ∈ inRange, nbr.id ∈ (inRange.map (·.id)).toFinset := fun nbr mem =>
    mem_toFinset.mpr (mem_map_of_mem mem)
  refine ⟨bound, {
      accessor := s.accessor
      visited := (inRange.map (·.id)).toFinset
      rangeFrontier := []
      inRange
      hops := s.scratch.hops
      cmps := s.scratch.cmps }, ⟨s.scratch.cmps, s.scratch.hops, false⟩, rfl,
    fun nbr mem => of_decide_eq_true (by simpa using (mem_filter.mp mem).2), rfl,
    ⟨fun id mem => ?_, List.Subset.refl _, ids, fun nbr mem => ⟨known nbr mem, ?_⟩,
      fun id mem => mem_toFinset.mpr mem, fun nbr mem =>
        .inl (mem_map_of_mem mem), fun _ id mem _ => mem_toFinset.mp mem,
      fun nbr => .inl⟩,
    fun fuel enough => ?_⟩
  · obtain ⟨nbr, listed, rfl⟩ := mem_map.mp (mem_toFinset.mp mem)
    exact explored.inside (explored.held nbr (sub.subset listed)).1
  · exact (explored.held nbr (sub.subset mem)).2
  · simp only [firstRound, honours.starting_points, Search.liftM_ok, pure_bind, ran fuel enough,
      selected]

/-- Both rounds of a search: `s` is the state after the first and `s'` after the second, if it runs. -/
theorem search_ranging (honours : A.Honours G distance starts) (distinct : starts.Nodup)
    (inside : ∀ id ∈ starts, id ∈ G.nodes) (r : Range) (pooled : Option (SearchScratch I)) (a : σ) :
    ∃ bound stats s s', (∀ nbr ∈ s.inRange, r.radius.ge nbr.distance = true) ∧
      Ranging G distance r s.inRange s' ∧
      (s'.rangeFrontier = [] ∨ r.room s'.inRange.length = false) ∧
      ∀ fuel > bound, r.firstRound A fuel pooled a = pure (stats, s) ∧
        ∃ res, r.search A fuel pooled a = pure res ∧
          res.stats.rangeSearchSecondRound = r.continues s.inRange.length ∧
          (r.continues s.inRange.length = true →
            res.stats.hops = stats.hops + s'.hops ∧ res.accessor = s'.accessor ∧
            res.output = s'.inRange.filter fun n => r.reported n.distance) := by
  obtain ⟨first, s, stats, fresh, near, idle, ranging, ran⟩ :=
    firstRound_ranging honours distinct inside r pooled a
  obtain ⟨s', looped, ranging', ended⟩ := loop_ranging honours ranging
  refine ⟨max first (remaining G { s with rangeFrontier := s.inRange.map (·.id) }), stats, s, s', near,
    ranging', ended, fun fuel enough => ?_⟩
  have begun := ran fuel (by omega)
  have walked := looped fuel (by omega)
  refine ⟨begun, ?_⟩
  cases goes : r.continues s.inRange.length with
  | false =>
    refine ⟨⟨stats, s.inRange.filter fun n => r.reported n.distance, s.accessor⟩, ?_, fresh, nofun⟩
    simp only [search, begun, pure_bind, secondRound, goes, Bool.false_eq_true, if_false]
  | true =>
    refine ⟨⟨⟨stats.cmps, stats.hops + s'.hops, true⟩, _, s'.accessor⟩, ?_, rfl,
      fun _ => ⟨rfl, rfl, rfl⟩⟩
    simp only [search, begun, pure_bind, secondRound, goes, if_true, rangeSearchInternal, idle,
      nil_append, walked]

/-- What a search is for, if its second round runs: `first` are the results of the first round. -/
structure Finds (G : FiniteGraph I) (distance : I → F32) (r : Range)
    (first output : List (Neighbor I)) : Prop where
  complete : ∀ nbr ∈ first, ∀ id, Within G distance r.radius nbr.id id →
    (∀ inner ∈ r.innerRadius, inner.lt (distance id) = true) → ⟨id, distance id⟩ ∈ output
  distinct : (output.map (·.id)).Nodup
  within : ∀ nbr ∈ output, nbr.distance = distance nbr.id ∧ r.radius.ge nbr.distance = true ∧
    ∀ inner ∈ r.innerRadius, inner.lt nbr.distance = true

/-- Both rounds end, for every graph and accessor, and if the second one runs it finds what it is
for. -/
def Succeeds (r : Range) : Prop :=
  ∀ {I σ E : Type} [DecidableEq I] (A : SearchAccessor I σ E) (G : FiniteGraph I)
    (distance : I → F32) (starts : List I), A.Honours G distance starts → starts.Nodup →
    (∀ id ∈ starts, id ∈ G.nodes) → ∀ (pooled : Option (SearchScratch I)) (a : σ),
    ∃ bound, ∀ fuel > bound, ∃ stats s result, r.firstRound A fuel pooled a = pure (stats, s) ∧
      r.search A fuel pooled a = pure result ∧
      (result.stats.rangeSearchSecondRound = true → r.Finds G distance s.inRange result.output)

theorem reported_iff (r : Range) (d : F32) (numbers : ∀ inner ∈ r.innerRadius, inner.isNan = false) :
    r.reported d = true ↔
      r.radius.ge d = true ∧ ∀ inner ∈ r.innerRadius, inner.lt d = true := by
  unfold reported
  cases bound : r.innerRadius with
  | none => simp
  | some inner =>
    have number := numbers inner bound
    simp only [Bool.and_eq_true, Bool.not_eq_true', Option.mem_def, Option.some.injEq,
      forall_eq']
    rw [and_comm]
    refine and_congr_right fun near => ?_
    have dist := (F32.ge_eq_true.mp near).2.1
    rw [F32.ge_eq_false_iff number dist, F32.lt_iff number dist]

omit [DecidableEq I] in
theorem ge_of_within {radius : F32} {x y : I} (near : radius.ge (distance x) = true)
    (path : Within G distance radius x y) : radius.ge (distance y) = true := by
  cases path with
  | refl => exact near
  | tail _ edge => exact edge.2

/-- A search without a bound on its results finds them if scaling does not lower the radius, or if
there is nothing to find between the radii. -/
theorem succeeds (unbounded : r.maxReturned = none)
    (numbers : ∀ inner ∈ r.innerRadius, inner.isNan = false)
    (wide : r.walkRadius.ge r.radius = true ∨ ∃ inner ∈ r.innerRadius, inner.ge r.radius = true) :
    r.Succeeds := by
  intro I σ E _ A G distance starts honours distinct inside pooled a
  obtain ⟨bound, stats, s, s', near, ranging, ended, ran⟩ :=
    search_ranging honours distinct inside r pooled a
  refine ⟨bound, fun fuel enough => ?_⟩
  obtain ⟨begun, res, searched, runs, output⟩ := ran fuel enough
  refine ⟨stats, s, res, begun, searched, fun second => ?_⟩
  obtain ⟨-, -, listed⟩ := output (runs ▸ second)
  have idle : s'.rangeFrontier = [] := ended.resolve_right (by simp [room, unbounded])
  rw [listed]
  refine ⟨fun nbr mem id path outside => ?_, ?_, fun nbr mem => ?_⟩
  · have source : r.radius.ge (distance nbr.id) = true := by
      rw [← (ranging.held nbr (ranging.begun mem)).2]
      exact near nbr mem
    have close := ge_of_within source path
    rcases wide with wide | ⟨inner, some, above⟩
    · obtain ⟨held, listed, rfl⟩ :=
        mem_map.mp (ranging.mem_of_within unbounded idle wide mem path)
      have same : held = ⟨held.id, distance held.id⟩ := by
        rw [← (ranging.held held listed).2]
      rw [← same, mem_filter, r.reported_iff _ numbers, (ranging.held held listed).2]
      exact ⟨listed, close, outside⟩
    · have above' := F32.ge_trans above close
      have below := outside inner some
      rw [F32.ge_eq_true] at above'
      rw [F32.lt_eq_true] at below
      omega
  · exact ranging.distinct.sublist (filter_sublist.map _)
  · obtain ⟨held, reported⟩ := mem_filter.mp mem
    rw [r.reported_iff _ numbers] at reported
    exact ⟨(ranging.held nbr held).2, reported⟩

/-! ## Where it fails -/

/-- Two nodes, each a neighbor of the other. -/
def pair : FiniteGraph Bool where
  nodes := Finset.univ
  neighbors id := [!id]
  closed _ _ _ _ := Finset.mem_univ _

/-- A search that begins with the closest node only. -/
def closestOnly (radius rangeSlack : F32) (innerRadius : Option F32)
    (slack : rangeSlack.lt .one = false)
    (inner : ∀ inner ∈ innerRadius, radius.lt inner = false) : Range where
  maxReturned := none
  startingL := 1
  beamWidth := 1
  radius := radius
  innerRadius := innerRadius
  initialSlack := .one
  rangeSlack := rangeSlack
  startingL_pos := le_rfl
  beamWidth_pos := le_rfl
  startingL_le := nofun
  initialSlack_mem := by decide
  rangeSlack_ge := slack
  innerRadius_le := inner

section Fails

variable {radius rangeSlack : F32} {innerRadius : Option F32} (slack : rangeSlack.lt .one = false)
  (inner : ∀ inner ∈ innerRadius, radius.lt inner = false)

theorem closestOnly_continues (radius : F32) (inner : ∀ inner ∈ innerRadius, radius.lt inner = false) :
    (closestOnly radius rangeSlack innerRadius slack inner).continues 1 = true := by
  have reached : (closestOnly radius rangeSlack innerRadius slack inner).threshold = 1 := by
    change ((F32.ofUsize 1).mul .one).toUsize = 1
    decide +kernel
  have free : (closestOnly radius rangeSlack innerRadius slack inner).room 1 = true := rfl
  simp [continues, reached, free]

/-- With both nodes at the radius, the first round finds one of them. -/
theorem firstRound_pair (number : radius.isNan = false) :
    ∃ bound stats s nbr, s.inRange = [nbr] ∧ ∀ fuel > bound,
      (closestOnly radius rangeSlack innerRadius slack inner).firstRound
        (.ofGraph pair (fun _ => radius) [false]) fuel none () = pure (stats, s) := by
  set r := closestOnly radius rangeSlack innerRadius slack inner
  have lawful := SearchAccessor.ofGraph_lawful pair (fun _ => radius) [false]
  obtain ⟨bound, s, q, stored, searching, -, ran⟩ := Search.searchInternal_searching lawful
    (by decide) (by simp [pair]) (fun _ _ => number) le_rfl
    (show ∀ width ∈ some 1, 1 ≤ width by simp) none ()
  have start : false ∈ s.scratch.visited := (searching.discovered false).mpr (.inl (by simp))
  have held : q.slots ≠ [] := by
    obtain ⟨full, -, taken, -, all⟩ := searching.closest
    have listed := (all ⟨false, radius⟩).mpr ⟨start, rfl⟩
    intro empty
    rw [empty, eq_comm, take_eq_nil_iff] at taken
    rcases taken with none | none
    · simp at none
    · simp [none] at listed
  obtain ⟨slot, rest, slots⟩ := exists_cons_of_ne_nil held
  have at_radius : slot.neighbor.distance = radius :=
    (searching.held slot.neighbor (mem_map_of_mem (slots ▸ mem_cons_self))).2
  have found : (s.scratch.best.iter.take 1).filter (fun n => radius.ge n.distance) =
      [slot.neighbor] := by
    have close : radius.ge radius = true := F32.ge_eq_true.mpr ⟨number, number, le_rfl⟩
    rw [stored, q.toQueue_iter, searching.fixed.searchParamL, slots]
    simp [at_radius, close]
  refine ⟨bound, ⟨s.scratch.cmps, s.scratch.hops, false⟩, {
      accessor := s.accessor
      visited := {slot.neighbor.id}
      rangeFrontier := []
      inRange := [slot.neighbor]
      hops := s.scratch.hops
      cmps := s.scratch.cmps }, slot.neighbor, rfl, fun fuel enough => ?_⟩
  simp only [firstRound, lawful.starting_points, Search.liftM_ok, pure_bind]
  rw [show r.beamWidth = 1 from rfl, show r.startingL = 1 from rfl, ran fuel enough, pure_bind]
  simp only [show r.radius = radius from rfl, found]
  rfl

/-- What the search of the pair hands out, if it succeeds. -/
theorem search_pair (number : radius.isNan = false)
    (succeeds : (closestOnly radius rangeSlack innerRadius slack inner).Succeeds) :
    ∃ (nbr : Neighbor Bool) (inRange : List (Neighbor Bool)), nbr ∈ inRange ∧
      nbr.distance = radius ∧
      (∀ other ∈ inRange, other = nbr ∨ (radius.mul rangeSlack).ge radius = true) ∧
      (closestOnly radius rangeSlack innerRadius slack inner).Finds pair (fun _ => radius) [nbr]
        (inRange.filter fun n =>
          (closestOnly radius rangeSlack innerRadius slack inner).reported n.distance) := by
  set r := closestOnly radius rangeSlack innerRadius slack inner with call
  have honours := (SearchAccessor.ofGraph_lawful pair (fun _ => radius) [false]).honours
  obtain ⟨bound₁, stats₁, s₁, nbr, found, first⟩ := firstRound_pair slack inner number
  obtain ⟨bound₂, stats₂, s₂, s', -, ranging, -, ran⟩ :=
    search_ranging honours (by decide) (by simp [pair]) r none ()
  obtain ⟨bound₃, finds⟩ := succeeds (.ofGraph pair (fun _ => radius) [false]) pair
    (fun _ => radius) [false] honours (by decide) (by simp [pair]) none ()
  set fuel := max bound₁ (max bound₂ bound₃) + 1
  obtain ⟨stats₃, s₃, res, first₃, searched, finds⟩ := finds fuel (by omega)
  obtain ⟨first₂, result₂, searched₂, runs, output⟩ := ran fuel (by omega)
  have first₁ := first fuel (by omega)
  obtain rfl := pure_inj (searched.symm.trans searched₂)
  obtain ⟨rfl, rfl⟩ := Prod.mk.inj (pure_inj (first₁.symm.trans first₂))
  obtain ⟨-, rfl⟩ := Prod.mk.inj (pure_inj (first₁.symm.trans first₃))
  have second : r.continues s₁.inRange.length = true := by
    rw [found]
    exact closestOnly_continues slack radius inner
  have listed := (output second).2.2
  have kept := finds (runs.trans second)
  rw [listed, found] at kept
  have held : nbr ∈ s'.inRange := ranging.begun (found ▸ mem_singleton_self nbr)
  refine ⟨nbr, s'.inRange, held, (ranging.held nbr held).2, fun other mem => ?_, kept⟩
  rcases ranging.origin other mem with old | near
  · rw [found] at old
    exact .inl (mem_singleton.mp old)
  · rw [(ranging.held other mem).2] at near
    exact .inr near

end Fails

/-- For a radius, a slack factor and an inner radius, every search finds what lies between the radii
just when scaling does not lower the radius, or there is nothing between them. -/
theorem search_succeeds_iff {radius rangeSlack : F32} (number : radius.isNan = false)
    (scales : rangeSlack.ge .one = true) (innerRadius : Option F32)
    (valid : ∀ inner ∈ innerRadius, radius.lt inner = false) :
    (∀ r : Range, r.maxReturned = none → r.radius = radius → r.rangeSlack = rangeSlack →
      r.innerRadius = innerRadius → r.Succeeds) ↔
    (∀ inner ∈ innerRadius, inner.isNan = false) ∧
      ((radius.mul rangeSlack).ge radius = true ∨ ∃ inner ∈ innerRadius, inner.ge radius = true) := by
  have slack : rangeSlack.lt .one = false := by
    rw [F32.ge_eq_true] at scales
    simp [F32.lt, scales.2.2]
  constructor
  · intro succeeds
    obtain ⟨nbr, inRange, held, at_radius, only, finds⟩ := search_pair slack valid number
      fun {_ _ _ _} => succeeds (closestOnly radius rangeSlack innerRadius slack valid) rfl rfl rfl rfl
    have close : radius.ge radius = true := F32.ge_eq_true.mpr ⟨number, number, le_rfl⟩
    have numbers : ∀ inner ∈ innerRadius, inner.isNan = false := by
      intro inner some
      refine eq_false_of_ne_true fun nan => ?_
      have handed : nbr ∈ inRange.filter fun n =>
          (closestOnly radius rangeSlack innerRadius slack valid).reported n.distance := by
        rw [mem_filter, at_radius]
        refine ⟨held, ?_⟩
        have kept : inner.ge radius = false := by simp [F32.ge, nan]
        simp [reported, closestOnly, show innerRadius = _ from some, close, kept]
      have below := (finds.within nbr handed).2.2 inner some
      rw [F32.lt_eq_true, nan] at below
      cases below.1
    refine ⟨numbers, ?_⟩
    by_contra fails
    rw [not_or] at fails
    have outside : ∀ inner ∈ innerRadius, inner.lt radius = true := by
      intro inner some
      have above : inner.ge radius = false :=
        eq_false_of_ne_true fun above => fails.2 ⟨inner, some, above⟩
      rwa [F32.ge_eq_false_iff (numbers inner some) number,
        ← F32.lt_iff (numbers inner some) number] at above
    have other := finds.complete nbr (mem_singleton_self nbr) (!nbr.id)
      (.single ⟨mem_singleton_self _, close⟩) outside
    rcases only _ (mem_of_mem_filter other) with same | wide
    · have := congrArg Neighbor.id same
      simp at this
    · exact fails.1 wide
  · rintro ⟨numbers, wide⟩ r unbounded rfl rfl rfl
    exact succeeds unbounded numbers wide

theorem search_succeeds_iff_one :
    F32.one.isNan = false ∧ F32.one.ge .one = true ∧
      ((∀ r : Range, r.maxReturned = none → r.radius = .one → r.rangeSlack = .one →
        r.innerRadius = none → r.Succeeds) ↔
      (∀ inner ∈ (none : Option F32), inner.isNan = false) ∧
        ((F32.one.mul .one).ge .one = true ∨
          ∃ inner ∈ (none : Option F32), inner.ge .one = true)) :=
  ⟨by decide, by decide, search_succeeds_iff (by decide) (by decide) none nofun⟩

/-- With radius `-1.0` and slack `2.0` the neighbor of the first result, just as far, is left out. -/
theorem search_misses_negative :
    let r := closestOnly ⟨0xbf800000⟩ ⟨0x40000000⟩ none (by decide) nofun
    Within pair (fun _ => ⟨0xbf800000⟩) r.radius true false ∧
      (r.firstRound (.ofGraph pair (fun _ => ⟨0xbf800000⟩) [false]) 5 none ()).run =
        some (.ok (⟨2, 2, false⟩, ⟨(), {true}, [], [⟨true, ⟨0xbf800000⟩⟩], 2, 2⟩)) ∧
      (r.search (.ofGraph pair (fun _ => ⟨0xbf800000⟩) [false]) 5 none ()).run =
        some (.ok ⟨⟨2, 5, true⟩, [⟨true, ⟨0xbf800000⟩⟩], ()⟩) :=
  ⟨.single ⟨by decide, by decide⟩, by decide +kernel, by decide +kernel⟩

end Range

end DiskAnn
