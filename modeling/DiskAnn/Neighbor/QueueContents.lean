import DiskAnn.Neighbor.QueueCursor

/-! # What the neighbor priority queue holds

A queue of fixed capacity into which neighbors are inserted holds the closest of them, in order; a
resizable queue holds all of them. `remove` looks for its argument only at the first entry that is not
closer; `Findable` says when that is where the argument is, if it is there at all.
-/

namespace DiskAnn

open List Slot NeighborPriorityQueue

namespace NeighborPriorityQueue

variable {I : Type} (q : NeighborPriorityQueue I)

/-- The entries of the queue, without their flags. -/
def neighbors : List (Neighbor I) :=
  zipWith (fun entry distance => ⟨entry.1, distance⟩) q.idVisiteds q.distances

def Sorted : Prop := q.distances.Pairwise (·.key ≤ ·.key)

/-- What `remove` is for: it answers whether an entry with the id and the distance is there, and takes
out that entry and nothing else. -/
structure RemovesExactly (q : NeighborPriorityQueue I) (nbr : Neighbor I) (found : Bool)
    (after : NeighborPriorityQueue I) : Prop where
  answer : found = true ↔
    ∃ held ∈ q.neighbors, held.id = nbr.id ∧ held.distance.eq nbr.distance = true
  removed : found = true → ∃ (index : ℕ) (held : Neighbor I), q.neighbors[index]? = some held ∧
    held.id = nbr.id ∧ held.distance.eq nbr.distance = true ∧
    after.idVisiteds = q.idVisiteds.eraseIdx index ∧
    after.distances = q.distances.eraseIdx index ∧ after.size + 1 = q.size
  unchanged : found = false → after = q

/-- An entry with the id that is not closer than the argument is at its distance just in case all
entries before it are closer. -/
def Findable (nbr : Neighbor I) : Prop :=
  ∀ (index : ℕ) (held : Neighbor I), q.neighbors[index]? = some held → held.id = nbr.id →
    held.distance.ge nbr.distance = true → (held.distance.eq nbr.distance = true ↔
      ∀ earlier < index, ∀ other : Neighbor I, q.neighbors[earlier]? = some other →
        other.distance.lt nbr.distance = true)

def insertAll (nbrs : List (Neighbor I)) :
    Option (NeighborPriorityQueue I) :=
  nbrs.foldlM insert q

end NeighborPriorityQueue

namespace SlotQueue

variable {I : Type} {s : SlotQueue I}

theorem toQueue_neighbors (s : SlotQueue I) : s.toQueue.neighbors = s.neighbors := by
  unfold NeighborPriorityQueue.neighbors toQueue neighbors
  rw [zipWith_map, zipWith_self]
  rfl

theorem toQueue_sorted (s : SlotQueue I) : s.toQueue.Sorted := pairwise_map.mpr s.sorted

/-! ## The closest neighbors -/

/-- The slots of all neighbors in order; of equally far ones the last inserted comes first. -/
def ordered (slots : List (Slot I)) (nbrs : List (Neighbor I)) : List (Slot I) :=
  nbrs.foldl (fun slots nbr => slots.orderedInsert Slot.le (.fresh nbr)) slots

theorem sorted_ordered {slots : List (Slot I)} (sorted : slots.Pairwise le)
    (nbrs : List (Neighbor I)) : (ordered slots nbrs).Pairwise le := by
  induction nbrs generalizing slots with
  | nil => exact sorted
  | cons nbr nbrs ih => exact ih (sorted.orderedInsert (.fresh nbr) slots)

theorem neighbors_ordered_perm (slots : List (Slot I)) (nbrs : List (Neighbor I)) :
    ((ordered slots nbrs).map neighbor).Perm (nbrs ++ slots.map neighbor) := by
  induction nbrs generalizing slots with
  | nil => exact .refl _
  | cons nbr nbrs ih =>
    have inserted : ((slots.orderedInsert le (.fresh nbr)).map neighbor).Perm
        (nbr :: slots.map neighbor) := (perm_orderedInsert ..).map neighbor
    exact (ih _).trans ((inserted.append_left nbrs).trans perm_middle)

theorem Fixed.insert_slots {c : ℕ} (fixed : s.Fixed c) {nbr : Neighbor I}
    (number : nbr.distance.isNan = false) :
    (s.insert nbr).slots = (s.slots.orderedInsert le (.fresh nbr)).take c := by
  unfold SlotQueue.insert
  rw [dif_pos number, if_neg (by simp [fixed.autoResizable]), ← fixed.capacity]
  rfl

theorem insert_autoResizable (s : SlotQueue I) (nbr : Neighbor I) :
    (s.insert nbr).autoResizable = s.autoResizable := by
  unfold insert
  split_ifs <;> rfl

/-- The invariant is that the queue holds the first `c` of all slots in order. -/
theorem Fixed.insertAll {c : ℕ} (fixed : s.Fixed c) (pos : 1 ≤ c) {slots : List (Slot I)}
    (held : s.slots = slots.take c) {nbrs : List (Neighbor I)}
    (numbers : ∀ nbr ∈ nbrs, nbr.distance.isNan = false) :
    ∃ t : SlotQueue I, s.toQueue.insertAll nbrs = some t.toQueue ∧
      t.slots = (ordered slots nbrs).take c := by
  induction nbrs generalizing s slots with
  | nil => exact ⟨s, rfl, held⟩
  | cons nbr nbrs ih =>
    obtain ⟨number, numbers⟩ := forall_mem_cons.mp numbers
    have room : 0 < s.capacity := fixed.capacity ▸ pos
    have held' : (s.insert nbr).slots = (slots.orderedInsert le (.fresh nbr)).take c := by
      rw [fixed.insert_slots number, held, take_orderedInsert_take]
    obtain ⟨t, ran, final⟩ := ih (fixed.insert nbr) held' numbers
    refine ⟨t, ?_, final⟩
    rw [insertAll, foldlM_cons, s.toQueue_insert (.inr (.inr room))]
    exact ran

theorem insertAll_of_autoResizable (auto : s.autoResizable = true) {nbrs : List (Neighbor I)}
    (numbers : ∀ nbr ∈ nbrs, nbr.distance.isNan = false) :
    ∃ t : SlotQueue I, s.toQueue.insertAll nbrs = some t.toQueue ∧ t.slots = ordered s.slots nbrs := by
  induction nbrs generalizing s with
  | nil => exact ⟨s, rfl, rfl⟩
  | cons nbr nbrs ih =>
    obtain ⟨number, numbers⟩ := forall_mem_cons.mp numbers
    obtain ⟨t, ran, final⟩ := ih ((s.insert_autoResizable nbr).trans auto) numbers
    rw [s.insert_slots_of_room number (.inl auto)] at final
    refine ⟨t, ?_, final⟩
    rw [insertAll, foldlM_cons, s.toQueue_insert (.inr (.inl auto))]
    exact ran

/-- The distances in order are determined by the distances. -/
theorem keys_ordered (nbrs : List (Neighbor I)) :
    (ordered [] nbrs).map (·.distance.key) =
      (nbrs.map fun nbr => nbr.distance.key).insertionSort (· ≤ ·) := by
  have perm : ((ordered [] nbrs).map (·.distance.key)).Perm (nbrs.map fun nbr => nbr.distance.key) := by
    have all := (neighbors_ordered_perm [] nbrs).map fun nbr => nbr.distance.key
    rwa [map_nil, append_nil, map_map] at all
  have sorted : ((ordered [] nbrs).map (·.distance.key)).Pairwise (· ≤ ·) :=
    pairwise_map.mpr (sorted_ordered .nil nbrs)
  exact (perm.trans (perm_insertionSort ..).symm).eq_of_pairwise'
    sorted (pairwise_insertionSort ..)

end SlotQueue

namespace NeighborPriorityQueue

variable {I : Type}

/-- After any insertions a queue of capacity `c` holds the `c` closest of the neighbors in order, each
with its id, and a resizable queue holds all of them. -/
theorem insertAll_holds_closest {c : ℕ} (positive : 1 ≤ c) {nbrs : List (Neighbor I)}
    (numbers : ∀ nbr ∈ nbrs, nbr.distance.isNan = false) :
    (∃ q, (new c).insertAll nbrs = some q ∧ q.Sorted ∧ q.size = q.idVisiteds.length ∧
      q.size = q.distances.length ∧ q.size = min c nbrs.length ∧
      q.distances.map F32.key =
        ((nbrs.map fun nbr => nbr.distance.key).insertionSort (· ≤ ·)).take c ∧
      ∃ dropped, (q.neighbors ++ dropped).Perm nbrs ∧
        ∀ kept ∈ q.neighbors, ∀ lost ∈ dropped, kept.distance.key ≤ lost.distance.key) ∧
    ∃ q, (autoResizableWithSearchParamL c).insertAll nbrs = some q ∧ q.Sorted ∧
      q.size = q.idVisiteds.length ∧ q.size = q.distances.length ∧ q.neighbors.Perm nbrs := by
  have all := SlotQueue.neighbors_ordered_perm ([] : List (Slot I)) nbrs
  rw [map_nil, append_nil] at all
  constructor
  · have fixed : (SlotQueue.empty c false : SlotQueue I).Fixed c := ⟨rfl, rfl, rfl⟩
    obtain ⟨t, ran, slots⟩ := fixed.insertAll positive
      (show (SlotQueue.empty c false).slots = ([] : List (Slot I)).take c from take_nil.symm) numbers
    have split : t.neighbors ++ ((SlotQueue.ordered [] nbrs).drop c).map Slot.neighbor =
        (SlotQueue.ordered [] nbrs).map Slot.neighbor := by
      rw [SlotQueue.neighbors, slots, ← map_append, take_append_drop]
    refine ⟨t.toQueue, ran, t.toQueue_sorted, (length_map ..).symm, (length_map ..).symm,
      ?_, ?_, ((SlotQueue.ordered [] nbrs).drop c).map Slot.neighbor, ?_, ?_⟩
    · have length := all.length_eq
      rw [length_map] at length
      change t.slots.length = _
      rw [slots, length_take, length]
    · change (t.slots.map (·.distance)).map F32.key = _
      rw [map_map, slots, map_take, ← SlotQueue.keys_ordered]
      rfl
    · rwa [t.toQueue_neighbors, split]
    · intro kept inside lost outside
      rw [t.toQueue_neighbors, SlotQueue.neighbors, slots] at inside
      obtain ⟨a, ha, rfl⟩ := mem_map.mp inside
      obtain ⟨b, hb, rfl⟩ := mem_map.mp outside
      have sorted := SlotQueue.sorted_ordered Pairwise.nil nbrs
      rw [← take_append_drop c (SlotQueue.ordered [] nbrs), pairwise_append] at sorted
      exact sorted.2.2 a ha b hb
  · obtain ⟨t, ran, slots⟩ := SlotQueue.insertAll_of_autoResizable
      (s := (.empty c true : SlotQueue I)) rfl numbers
    refine ⟨t.toQueue, ran, t.toQueue_sorted, (length_map ..).symm, (length_map ..).symm, ?_⟩
    rw [t.toQueue_neighbors, SlotQueue.neighbors, slots]
    exact all

/-- Capacity two: entry 4 is dropped, and of the equally far entries 1 and 3 the later one is kept. -/
theorem insertAll_holds_closest_tied :
    ∃ q, (new 2).insertAll [⟨1, ⟨0x40000000⟩⟩, ⟨2, ⟨0x3f800000⟩⟩, ⟨3, ⟨0x40000000⟩⟩,
        ⟨4, ⟨0x40400000⟩⟩] = some q ∧ q.Sorted ∧
      q.neighbors = [⟨2, ⟨0x3f800000⟩⟩, ⟨3, ⟨0x40000000⟩⟩] := by
  obtain ⟨⟨q, ran, sorted, -⟩, -⟩ := @insertAll_holds_closest ℕ 2 (by decide)
    [⟨1, ⟨0x40000000⟩⟩, ⟨2, ⟨0x3f800000⟩⟩, ⟨3, ⟨0x40000000⟩⟩, ⟨4, ⟨0x40400000⟩⟩] (by decide)
  cases ran
  exact ⟨_, rfl, sorted, rfl⟩

end NeighborPriorityQueue

/-! ## Removing an entry -/

namespace SlotQueue

variable {I : Type} {s : SlotQueue I} {nbr : Neighbor I}

theorem Distinct.index_eq (distinct : s.Distinct) {i j : ℕ} {a b : Slot I}
    (ha : s.slots[i]? = some a) (hb : s.slots[j]? = some b) (same : a.id = b.id) : i = j := by
  have inside : i < (s.slots.map Slot.id).length := by
    rw [length_map]
    exact (List.getElem?_eq_some_iff.mp ha).1
  refine (getElem?_inj inside distinct).mp ?_
  rw [getElem?_map, getElem?_map, ha, hb]
  exact congrArg some same

theorem neighbors_getElem? (s : SlotQueue I) (index : ℕ) :
    s.neighbors[index]? = s.slots[index]?.map neighbor := getElem?_map ..

/-- Where the search for a distance ends. -/
theorem lowerBound_eq_iff {distance : F32} {index : ℕ} {slot : Slot I}
    (found : s.slots[index]? = some slot) (number : distance.isNan = false) :
    s.lowerBound distance = index ↔ slot.distance.ge distance = true ∧
      ∀ earlier < index, ∀ other, s.slots[earlier]? = some other →
        other.distance.lt distance = true := by
  obtain ⟨inside, rfl⟩ := List.getElem?_eq_some_iff.mp found
  have closer : ∀ {other : Slot I}, other ∈ s.slots →
      (other.distance.lt distance = true ↔ ¬ other.distance.ge distance = true) := by
    intro other mem
    have numberOther := s.number other mem
    rw [F32.lt_iff numberOther number, F32.ge_iff numberOther number, not_le]
  rw [lowerBound, findIdx_eq inside]
  refine and_congr_right fun _ => forall_congr' fun earlier => ?_
  constructor
  · intro fails before other at_earlier
    obtain ⟨within, rfl⟩ := List.getElem?_eq_some_iff.mp at_earlier
    rw [closer (getElem_mem within)]
    simpa using fails before
  · intro holds before
    have within := before.trans inside
    have lt := holds before _ (getElem?_eq_getElem within)
    rw [closer (getElem_mem within)] at lt
    simpa using lt

theorem removeAt_eq_some_iff [DecidableEq I] {index : ℕ} :
    s.removeAt nbr = some index ↔
      s.lowerBound nbr.distance = index ∧ s.slots[index]?.map Slot.id = some nbr.id := by
  unfold removeAt
  split_ifs with same
  · rw [Option.some.injEq]
    exact ⟨fun here => ⟨here, here ▸ same⟩, And.left⟩
  · exact iff_of_false (fun none => by cases none) fun ⟨here, there⟩ => same (here ▸ there)

/-- The slot at which `remove` looks is the one with the id, and all slots before it are closer. -/
theorem removeAt_eq_some_iff_of_id [DecidableEq I] {index : ℕ} {slot : Slot I}
    (found : s.slots[index]? = some slot) (same : slot.id = nbr.id)
    (number : nbr.distance.isNan = false) :
    s.removeAt nbr = some index ↔ slot.distance.ge nbr.distance = true ∧
      ∀ earlier < index, ∀ other, s.slots[earlier]? = some other →
        other.distance.lt nbr.distance = true := by
  rw [removeAt_eq_some_iff, lowerBound_eq_iff found number, found]
  exact and_iff_left (congrArg some same)

theorem not_nan_of_ge {x y : F32} (ge : x.ge y = true) : y.isNan = false := by
  simp_all [F32.ge]

theorem ge_of_eq {x y : F32} (eq : x.eq y = true) : x.ge y = true := by
  simp_all [F32.ge, F32.eq]

theorem removeAt_of_nan [DecidableEq I] (s : SlotQueue I) (nan : nbr.distance.isNan = true) :
    s.removeAt nbr = none := by
  have behind : s.lowerBound nbr.distance = s.slots.length :=
    findIdx_eq_length.mpr fun slot _ => by simp [F32.ge, nan]
  unfold removeAt
  rw [behind, getElem?_eq_none le_rfl]
  rfl

/-- `Findable` in terms of slots: a slot with the id is removed just in case it has the distance. -/
theorem findable_iff [DecidableEq I] (s : SlotQueue I) (nbr : Neighbor I) :
    s.toQueue.Findable nbr ↔ ∀ (index : ℕ) (slot : Slot I), s.slots[index]? = some slot →
      slot.id = nbr.id →
        (s.removeAt nbr = some index ↔ slot.distance.eq nbr.distance = true) := by
  have earlier_iff : ∀ index : ℕ,
      (∀ earlier < index, ∀ other : Neighbor I, s.neighbors[earlier]? = some other →
        other.distance.lt nbr.distance = true) ↔
      ∀ earlier < index, ∀ other, s.slots[earlier]? = some other →
        other.distance.lt nbr.distance = true := by
    intro index
    refine forall₂_congr fun earlier _ => ?_
    rw [neighbors_getElem?]
    cases s.slots[earlier]? <;> simp [neighbor]
  unfold Findable
  rw [toQueue_neighbors]
  constructor
  · intro findable index slot found same
    by_cases ge : slot.distance.ge nbr.distance = true
    · have here : s.neighbors[index]? = some slot.neighbor := by rw [neighbors_getElem?, found]; rfl
      rw [removeAt_eq_some_iff_of_id found same (not_nan_of_ge ge), and_iff_right ge, ← earlier_iff]
      exact (findable index slot.neighbor here same ge).symm
    · refine iff_of_false (fun removed => ge ?_) (fun eq => ge (ge_of_eq eq))
      cases nan : nbr.distance.isNan with
      | true =>
        rw [s.removeAt_of_nan nan] at removed
        cases removed
      | false => exact ((removeAt_eq_some_iff_of_id found same nan).mp removed).1
  · intro removes index held found same ge
    rw [neighbors_getElem?] at found
    obtain ⟨slot, at_index, rfl⟩ := Option.map_eq_some_iff.mp found
    have not_closer : slot.distance.ge nbr.distance = true := ge
    have removed := removes index slot at_index same
    rw [removeAt_eq_some_iff_of_id at_index same (not_nan_of_ge ge), and_iff_right not_closer,
      ← earlier_iff] at removed
    exact removed.symm

theorem exists_of_removeAt [DecidableEq I] {index : ℕ} (removed : s.removeAt nbr = some index) :
    ∃ slot, s.slots[index]? = some slot ∧ slot.id = nbr.id :=
  Option.map_eq_some_iff.mp (removeAt_eq_some_iff.mp removed).2

/-- In a queue of distinct ids `remove` is exact just in case its argument is findable. -/
theorem Distinct.removesExactly_iff [DecidableEq I] (distinct : s.Distinct) (nbr : Neighbor I) :
    s.toQueue.RemovesExactly nbr (s.toQueue.remove nbr).1 (s.toQueue.remove nbr).2 ↔
      s.toQueue.Findable nbr := by
  rw [findable_iff, toQueue_remove]
  have present_iff : (∃ held ∈ s.toQueue.neighbors, held.id = nbr.id ∧
      held.distance.eq nbr.distance = true) ↔ ∃ (index : ℕ) (slot : Slot I),
        s.slots[index]? = some slot ∧ slot.id = nbr.id ∧ slot.distance.eq nbr.distance = true := by
    rw [toQueue_neighbors]
    constructor
    · rintro ⟨held, mem, same, eq⟩
      obtain ⟨slot, inside, rfl⟩ := mem_map.mp mem
      obtain ⟨index, found⟩ := getElem?_of_mem inside
      exact ⟨index, slot, found, same, eq⟩
    · rintro ⟨index, slot, found, same, eq⟩
      exact ⟨slot.neighbor, mem_map_of_mem (mem_of_getElem? found), same, eq⟩
  constructor
  · intro exactly index slot found same
    constructor
    · intro removed
      obtain ⟨index', slot', found', same', eq⟩ :=
        present_iff.mp (exactly.answer.mp (by rw [removed]; rfl))
      obtain rfl := distinct.index_eq found found' (same.trans same'.symm)
      rwa [Option.some.inj (found.symm.trans found')]
    · intro eq
      obtain ⟨index', removed⟩ := Option.isSome_iff_exists.mp
        (exactly.answer.mpr (present_iff.mpr ⟨index, slot, found, same, eq⟩))
      obtain ⟨slot', found', same'⟩ := exists_of_removeAt removed
      rwa [distinct.index_eq found found' (same.trans same'.symm)]
  · intro removes
    refine ⟨?_, ?_, ?_⟩
    · rw [present_iff, Option.isSome_iff_exists]
      constructor
      · rintro ⟨index, removed⟩
        obtain ⟨slot, found, same⟩ := exists_of_removeAt removed
        exact ⟨index, slot, found, same, (removes index slot found same).mp removed⟩
      · rintro ⟨index, slot, found, same, eq⟩
        exact ⟨index, (removes index slot found same).mpr eq⟩
    · intro some
      obtain ⟨index, removed⟩ := Option.isSome_iff_exists.mp some
      obtain ⟨slot, found, same⟩ := exists_of_removeAt removed
      have inside := removeAt_lt removed
      refine ⟨index, slot.neighbor, ?_, same, (removes index slot found same).mp removed, ?_⟩
      · rw [toQueue_neighbors, neighbors_getElem?, found]
        rfl
      · rw [remove_of_some removed, toQueue_eraseIdx]
        exact ⟨rfl, rfl, Nat.sub_add_cancel (Nat.one_le_of_lt inside)⟩
    · intro none
      rw [remove_of_none (Option.isSome_eq_false_iff.mp none |> Option.isNone_iff_eq_none.mp)]

/-- Insertions of distinct ids give a queue of distinct ids. -/
theorem Distinct.of_insertAll {nbrs : List (Neighbor I)} {q : NeighborPriorityQueue I}
    (distinct : (nbrs.map (·.id) ++ s.slots.map Slot.id).Nodup)
    (ran : s.toQueue.insertAll nbrs = some q) : ∃ t : SlotQueue I, q = t.toQueue ∧ t.Distinct := by
  induction nbrs generalizing s with
  | nil => exact ⟨s, (Option.some.inj ran).symm, distinct⟩
  | cons nbr nbrs ih =>
    obtain ⟨q', inserted, ran⟩ := Option.bind_eq_some_iff.mp ran
    have applied := s.toQueue_insert (safe_insert_of_apply inserted)
    obtain rfl : (s.insert nbr).toQueue = q' := Option.some.inj (applied.symm.trans inserted)
    refine ih ?_ ran
    obtain ⟨kept, perm, sub⟩ := s.insert_slots_subperm nbr
    have spread : (nbrs.map (·.id) ++ nbr.id :: s.slots.map Slot.id).Nodup :=
      perm_middle.nodup_iff.mpr distinct
    have some : (nbrs.map (·.id) ++ kept.map Slot.id).Nodup :=
      spread.sublist ((sub.map Slot.id).append_left (nbrs.map (·.id)))
    exact ((perm.map Slot.id).append_left (nbrs.map (·.id))).nodup_iff.mp some

end SlotQueue

namespace NeighborPriorityQueue

variable {I : Type} [DecidableEq I]

/-- In a queue that distinct ids were inserted into, `remove` answers whether its argument is there and
takes out nothing else if and only if the argument is findable. -/
theorem remove_exact_iff {start q : NeighborPriorityQueue I} {searchParamL : ℕ}
    (created : start = new searchParamL ∨ start = autoResizableWithSearchParamL searchParamL)
    {nbrs : List (Neighbor I)} (distinct : (nbrs.map (·.id)).Nodup)
    (ran : start.insertAll nbrs = some q) (nbr : Neighbor I) :
    q.RemovesExactly nbr (q.remove nbr).1 (q.remove nbr).2 ↔ q.Findable nbr := by
  obtain ⟨s, rfl, slots, -⟩ := exists_empty created
  obtain ⟨t, rfl, distinct'⟩ := SlotQueue.Distinct.of_insertAll
    (by rw [slots, map_nil, append_nil]; exact distinct) ran
  exact distinct'.removesExactly_iff nbr

instance (q : NeighborPriorityQueue I) (nbr : Neighbor I) : Decidable (q.Findable nbr) :=
  decidable_of_iff (∀ index < q.neighbors.length, ∀ held ∈ q.neighbors[index]?, held.id = nbr.id →
      held.distance.ge nbr.distance = true → (held.distance.eq nbr.distance = true ↔
        ∀ earlier < index, ∀ other ∈ q.neighbors[earlier]?, other.distance.lt nbr.distance = true))
    ⟨fun all index held found => all index (List.getElem?_eq_some_iff.mp found).1 held found,
      fun findable index _ held found => findable index held found⟩

/-- Two entries at different distances. -/
def twoApart : NeighborPriorityQueue ℕ :=
  ((new 3).insertAll [⟨1, ⟨0x3f800000⟩⟩, ⟨2, ⟨0x40000000⟩⟩]).get rfl

/-- The closer one is removed. -/
theorem remove_exact_front :
    (new 3).insertAll [⟨1, ⟨0x3f800000⟩⟩, ⟨2, ⟨0x40000000⟩⟩] = some twoApart ∧
      twoApart.Findable ⟨1, ⟨0x3f800000⟩⟩ ∧
      twoApart.RemovesExactly ⟨1, ⟨0x3f800000⟩⟩ true (twoApart.remove ⟨1, ⟨0x3f800000⟩⟩).2 := by
  have ran : (new 3).insertAll [⟨1, ⟨0x3f800000⟩⟩, ⟨2, ⟨0x40000000⟩⟩] = some twoApart := rfl
  have findable : twoApart.Findable ⟨1, ⟨0x3f800000⟩⟩ := by decide
  exact ⟨ran, findable, (remove_exact_iff (.inl rfl) (by decide) ran _).mpr findable⟩

/-- Entries 1 and 2 are equally far, so that entry 2 stands before entry 1, which is not removed; of an
entry at another distance, entry 2 is removed. -/
theorem remove_misses_tied_entry :
    ∃ q, (new 3).insertAll [⟨1, ⟨0x40a00000⟩⟩, ⟨2, ⟨0x40a00000⟩⟩] = some q ∧
      ⟨1, ⟨0x40a00000⟩⟩ ∈ q.neighbors ∧ (q.remove ⟨1, ⟨0x40a00000⟩⟩).1 = false ∧
      (q.remove ⟨2, ⟨0x40400000⟩⟩).1 = true ∧
      ∀ held ∈ q.neighbors, held.distance.eq ⟨0x40400000⟩ = false := by
  refine ⟨_, rfl, ?_, ?_, ?_, ?_⟩ <;> decide

end NeighborPriorityQueue

end DiskAnn
