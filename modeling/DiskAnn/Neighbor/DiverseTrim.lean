import DiskAnn.Neighbor.DiverseCoupling
import DiskAnn.Neighbor.QueueContents

/-! # Trimming the diverse queue

`post_process` takes what exceeds `diverse_results_k` in the local queues out of the global one. Where
the local queues partition the global queue, this leaves the closest entries of every attribute value.
-/

namespace DiskAnn

open List SlotQueue

namespace DiverseNeighborQueue

variable {I A : Type} [DecidableEq A]

/-- What `post_process` is for: of each attribute value at most `diverse_results_k` entries stay, and
these are the closest. -/
structure Trimmed (before after : DiverseNeighborQueue I A) : Prop where
  sorted : after.globalQueue.Sorted
  few : ∀ value, (carrying after.globalQueue.neighbors value).length ≤ before.diverseResultsK
  closest : ∀ value, ∃ lost,
    (carrying after.globalQueue.neighbors value ++ lost).Perm
      (carrying before.globalQueue.neighbors value) ∧
    (carrying after.globalQueue.neighbors value).length =
      min before.diverseResultsK (carrying before.globalQueue.neighbors value).length ∧
    ∀ kept ∈ carrying after.globalQueue.neighbors value, ∀ gone ∈ lost,
      kept.distance.key ≤ gone.distance.key

variable {q : DiverseNeighborQueue I A} {lValue : ℕ} {slots : Slots I A}

/-- The ids that leave the local queue of an attribute value. -/
theorem Stores.mem_removedItems_iff (stores : q.Stores lValue slots) (value : A) (k : ℕ) (id : I) :
    id ∈ removedItems k (q.localQueue value) ↔
      ∃ nbr ∈ (slots.locals value).neighbors.drop k, nbr.id = id := by
  have all : (slots.locals value).toQueue.iter = (slots.locals value).neighbors := by
    rw [toQueue_iter, take_of_length_le]
    · rfl
    · rw [(stores.localsFixed value).searchParamL, ← (stores.localsFixed value).capacity]
      exact (slots.locals value).fits
  rw [stores.locals, removedItems, all]
  split_ifs with more
  · exact mem_map
  · have short : (slots.locals value).neighbors.length ≤ k := by
      rw [length_neighbors]
      exact not_lt.mp more
    rw [drop_of_length_le short]
    simp

theorem Stores.mem_removed_iff (stores : q.Stores lValue slots) (k : ℕ) (id : I) :
    id ∈ q.localQueueMap.entries.flatMap (fun entry => removedItems k entry.2) ↔
      ∃ value, ∃ nbr ∈ (slots.locals value).neighbors.drop k, nbr.id = id := by
  rw [mem_flatMap]
  constructor
  · rintro ⟨⟨value, queue⟩, mem, removed⟩
    have found : q.localQueueMap.lookup value = some queue := AList.mem_lookup_iff.mpr mem
    have here : q.localQueue value = queue := by rw [localQueue, found]; rfl
    exact ⟨value, (stores.mem_removedItems_iff value k id).mp (here ▸ removed)⟩
  · rintro ⟨value, removed⟩
    have removed := (stores.mem_removedItems_iff value k id).mpr removed
    cases found : q.localQueueMap.lookup value with
    | some queue =>
      rw [localQueue, found] at removed
      exact ⟨⟨value, queue⟩, AList.mem_lookup_iff.mp found, removed⟩
    | none =>
      -- an absent queue is empty
      rw [localQueue, found] at removed
      simp [removedItems, NeighborPriorityQueue.new] at removed

theorem carrying_filter (global : List (Neighbor (VectorIdWithAttribute I A))) (keep : I → Bool)
    (value : A) :
    carrying (global.filter fun neighbor => keep neighbor.id.id) value =
      (carrying global value).filter fun nbr => keep nbr.id := by
  unfold carrying
  rw [filter_comm, filter_map]
  rfl

variable [DecidableEq I]

theorem retain_neighbors {J : Type} (s : SlotQueue J) (keep : Neighbor J → Bool) :
    (s.retain keep).neighbors = s.neighbors.filter keep := by
  change ((s.slots.filter fun slot => keep slot.neighbor).map (Slot.mark false)).map Slot.neighbor = _
  rw [map_map, neighbors, filter_map]
  rfl

/-- The global queue keeps the entries whose ids no local queue loses. -/
theorem Stores.postProcess_global (stores : q.Stores lValue slots) :
    ∃ s : SlotQueue (VectorIdWithAttribute I A), q.postProcess.globalQueue = s.toQueue ∧
      s.neighbors = slots.global.neighbors.filter fun nbr => nbr.id.id ∉
        q.localQueueMap.entries.flatMap fun entry => removedItems q.diverseResultsK entry.2 := by
  unfold postProcess
  dsimp only
  rw [stores.global]
  split_ifs with none
  · refine ⟨slots.global, rfl, ?_⟩
    rw [isEmpty_iff.mp none]
    simp
  · exact ⟨_, toQueue_retain .., retain_neighbors ..⟩

section Coupled

variable {provider : I → Option A} {global : List (Neighbor (VectorIdWithAttribute I A))}
  {locals : A → List (Neighbor I)} (coupled : Coupled provider global locals)
include coupled

omit [DecidableEq I] in
theorem Coupled.nodup_local (value : A) :
    (locals value).Nodup := by
  rw [(coupled.parts value).nodup_iff]
  refine Nodup.of_map (·.id) ?_
  have ids : (carrying global value).map (·.id) =
      (global.filter (·.id.attributeValue = value)).map (·.id.id) := by
    rw [carrying, map_map]
    rfl
  rw [ids]
  exact coupled.distinct.sublist (filter_sublist.map _)

omit [DecidableEq I] in
/-- An entry of the global queue is one that a local queue loses just in case its own one does. -/
theorem Coupled.lost_iff (k : ℕ) {value : A}
    {nbr : Neighbor I} (held : nbr ∈ carrying global value) :
    (∃ other, ∃ nbr' ∈ (locals other).drop k, nbr'.id = nbr.id) ↔ nbr ∈ (locals value).drop k := by
  refine ⟨?_, fun lost => ⟨value, nbr, lost, rfl⟩⟩
  rintro ⟨other, nbr', lost, same⟩
  have held' := coupled.mem_local_iff.mp (mem_of_mem_drop lost)
  have equal := coupled.eq_of_global held' (mem_carrying.mp held) same
  obtain rfl : other = value := congrArg (·.id.attributeValue) equal
  obtain rfl : nbr' = nbr := congrArg withoutAttribute equal
  exact lost

/-- Without the lost entries a local queue is cut off at `k`. -/
theorem Coupled.perm_take (k : ℕ) (value : A)
    {removed : List I} (removed_iff : ∀ id, id ∈ removed ↔
      ∃ other, ∃ nbr ∈ (locals other).drop k, nbr.id = id) :
    ((carrying global value).filter fun nbr => nbr.id ∉ removed).Perm ((locals value).take k) := by
  have same : ((carrying global value).filter fun nbr => nbr.id ∉ removed) =
      (carrying global value).filter fun nbr => nbr ∉ (locals value).drop k := by
    refine filter_congr fun nbr held => ?_
    rw [decide_eq_decide, removed_iff, coupled.lost_iff k held]
  have nodup := coupled.nodup_local value
  rw [← take_append_drop k (locals value), nodup_append] at nodup
  have kept : (locals value).filter (fun nbr => nbr ∉ (locals value).drop k) =
      (locals value).take k := by
    conv_lhs => arg 2; rw [← take_append_drop k (locals value)]
    rw [filter_append, filter_eq_self.mpr, filter_eq_nil_iff.mpr, append_nil]
    · simp
    · intro nbr first
      rw [decide_eq_true_iff]
      exact fun last => nodup.2.2 nbr first nbr last rfl
  rw [same]
  refine ((coupled.parts value).symm.filter _).trans ?_
  rw [kept]

end Coupled

theorem Slots.Coupled.trimmed {provider : I → Option A} (coupled : slots.Coupled provider)
    (stores : q.Stores lValue slots) : Trimmed q q.postProcess := by
  obtain ⟨s, global, neighbors⟩ := stores.postProcess_global
  have before : q.globalQueue.neighbors = slots.global.neighbors := by
    rw [stores.global, toQueue_neighbors]
  have after : ∀ value, (carrying q.postProcess.globalQueue.neighbors value).Perm
      ((slots.locals value).neighbors.take q.diverseResultsK) := by
    intro value
    rw [global, toQueue_neighbors, neighbors,
      carrying_filter slots.global.neighbors fun id => decide (id ∉ _)]
    exact coupled.perm_take q.diverseResultsK value
      (stores.mem_removed_iff q.diverseResultsK)
  have count : ∀ value, (slots.locals value).neighbors.length =
      (carrying slots.global.neighbors value).length := fun value => (coupled.parts value).length_eq
  refine ⟨?_, fun value => ?_, fun value => ?_⟩
  · rw [global]
    exact s.toQueue_sorted
  · rw [(after value).length_eq]
    exact length_take_le ..
  · refine ⟨(slots.locals value).neighbors.drop q.diverseResultsK, ?_, ?_, ?_⟩
    · refine ((after value).append_right _).trans ?_
      rw [take_append_drop, before]
      exact coupled.parts value
    · rw [(after value).length_eq, length_take, count, before]
    · intro kept inside gone outside
      have inside := (after value).subset inside
      rw [SlotQueue.neighbors, ← map_take] at inside
      rw [SlotQueue.neighbors, ← map_drop] at outside
      obtain ⟨a, ha, rfl⟩ := mem_map.mp inside
      obtain ⟨b, hb, rfl⟩ := mem_map.mp outside
      have sorted := (slots.locals value).sorted
      rw [← take_append_drop q.diverseResultsK (slots.locals value).slots,
        pairwise_append] at sorted
      exact sorted.2.2 a ha b hb

/-! ## Runs -/

/-- Local queues without capacity let nothing in. -/
theorem run_of_no_room {lValue kValue diverseResultsK : ℕ} {provider : I → Option A}
    (none : diverseResultsK * lValue / kValue = 0) {ops : List (Operation I)}
    (ran : (new lValue kValue diverseResultsK provider).run ops = some q) :
    q = new lValue kValue diverseResultsK provider := by
  induction ops with
  | nil => exact (Option.some.inj ran).symm
  | cons op ops ih =>
    obtain ⟨q', applied, ran⟩ := Option.bind_eq_some_iff.mp ran
    have same : q' = new lValue kValue diverseResultsK provider := by
      cases op with
      | insert nbr =>
        change (new lValue kValue diverseResultsK provider).insert nbr = some q' at applied
        cases assigned : provider nbr.id with
        | none =>
          rw [DiverseNeighborQueue.insert, show (new lValue kValue diverseResultsK
            provider).attributeProvider nbr.id = Option.none from assigned] at applied
          exact (Option.some.inj applied).symm
        | some value =>
          have empty : (new lValue kValue diverseResultsK provider).localQueue value = .new 0 :=
            congrArg NeighborPriorityQueue.new none
          rw [DiverseNeighborQueue.insert, show (new lValue kValue diverseResultsK
            provider).attributeProvider nbr.id = some value from assigned] at applied
          simp only [empty] at applied
          cases applied
      | closestNotvisited =>
        have idle : (empty lValue false : SlotQueue (VectorIdWithAttribute I A)
            ).closestNotvisited = (Option.none, .empty lValue false) :=
          dif_neg (by simp [empty])
        rw [Operation.apply, (stores_new lValue kValue diverseResultsK provider).closestNotvisited,
          idle] at applied
        exact (Option.some.inj applied).symm
    rw [same] at ran
    exact ih ran

/-- After any safe run of insertions of distinct ids, `post_process` leaves the closest
`diverse_results_k` entries of each attribute value in the global queue. -/
theorem post_process_keeps_closest {lValue kValue diverseResultsK : ℕ} {provider : I → Option A}
    {ops : List (Operation I)} (distinct : (insertedIds ops).Nodup)
    (safe : (new lValue kValue diverseResultsK provider).SafeRun ops)
    (ran : (new lValue kValue diverseResultsK provider).run ops = some q) :
    Trimmed q q.postProcess := by
  have coupled : Slots.Coupled
      ⟨.empty lValue false, fun _ => .empty (diverseResultsK * lValue / kValue) false⟩ provider :=
    ⟨fun _ => .nil, nodup_nil, forall_mem_nil _⟩
  have stores := stores_new lValue kValue diverseResultsK provider
  rcases Nat.eq_zero_or_pos (diverseResultsK * lValue / kValue) with none | positive
  · obtain rfl := run_of_no_room none ran
    exact coupled.trimmed stores
  · have global : 0 < lValue := by
      rcases lValue.eq_zero_or_pos with rfl | positive'
      · simp at positive
      · exact positive'
    obtain ⟨q', slots, ran', stores', -, coupled'⟩ :=
      stores.run global positive distinct (forall_mem_nil _)
    obtain rfl : q' = q := Option.some.inj (ran'.symm.trans ran)
    exact (coupled' coupled safe).trimmed stores'

/-- Two odd entries and an even one: of the odd ones the closer one stays. -/
theorem post_process_keeps_closest_odd :
    ∃ q, (new 4 2 1 fun id => some (id % 2)).run
        [.insert ⟨1, ⟨0x3f800000⟩⟩, .insert ⟨3, ⟨0x40000000⟩⟩, .insert ⟨2, ⟨0x40400000⟩⟩] = some q ∧
      carrying q.globalQueue.neighbors 1 = [⟨1, ⟨0x3f800000⟩⟩, ⟨3, ⟨0x40000000⟩⟩] ∧
      q.postProcess.globalQueue.neighbors =
        [⟨⟨1, 1⟩, ⟨0x3f800000⟩⟩, ⟨⟨2, 0⟩, ⟨0x40400000⟩⟩] ∧ Trimmed q q.postProcess := by
  refine ⟨_, rfl, rfl, rfl, ?_⟩
  exact @post_process_keeps_closest ℕ ℕ _ _ _ 4 2 1 (fun id => some (id % 2))
    [.insert ⟨1, ⟨0x3f800000⟩⟩, .insert ⟨3, ⟨0x40000000⟩⟩, .insert ⟨2, ⟨0x40400000⟩⟩] (by decide)
    (by decide) rfl

/-- Entries 1 and 2 are equally far, so that the local queue loses entry 1 to entry 3 and the global
queue does not: two odd entries stay where one is allowed. -/
theorem post_process_keeps_too_many :
    ∃ q, (new 4 4 1 fun id => some (id % 2)).run
        [.insert ⟨1, ⟨0x40a00000⟩⟩, .insert ⟨2, ⟨0x40a00000⟩⟩, .insert ⟨3, ⟨0x40400000⟩⟩] = some q ∧
      q.diverseResultsK = 1 ∧
      carrying q.postProcess.globalQueue.neighbors 1 = [⟨3, ⟨0x40400000⟩⟩, ⟨1, ⟨0x40a00000⟩⟩] := by
  exact ⟨_, rfl, rfl, rfl⟩

end DiverseNeighborQueue

end DiskAnn
