import DiskAnn.Data.List
import DiskAnn.Neighbor.Queue

/-! # The queue as a sorted list of slots

An entry of the queue is a slot: an id, its flag and its distance. A `SlotQueue` is a list of slots in
ascending order with a cursor into it; `toQueue` stores it in the two vectors of the source. Every
operation of the source, run on a stored slot queue, answers the stored result of an operation on
lists: a sorted insertion cut off at the capacity, a drop, a take, an erasure, a filter.
-/

namespace DiskAnn

open List NeighborPriorityQueue Option F32

namespace NeighborPriorityQueue

variable {I : Type} {distances : List F32}

/-! ## The blocked search -/

/-- One load of eight lanes decides whether the search ends within them. -/
theorem findIdx_drop_block {index : ℕ} (target : F32) (within : index + 8 ≤ distances.length) :
    (distances.drop index).findIdx (·.ge target) =
      match firstGe (loadSimd distances index) target with
      | some offset => offset
      | none => 8 + (distances.drop (index + 8)).findIdx (·.ge target) := by
  have split : distances.drop index = loadSimd distances index ++ distances.drop (index + 8) := by
    rw [loadSimd, ← drop_drop, take_append_drop]
  have length : (loadSimd distances index).length = 8 := by
    simp only [loadSimd, length_take, length_drop]
    omega
  rw [split, findIdx_append, length]
  cases found : firstGe (loadSimd distances index) target with
  | some offset =>
    obtain ⟨small, rfl⟩ := findIdx?_eq_some_iff_findIdx_eq.mp found
    rw [length] at small
    exact if_pos small
  | none =>
    have absent : (loadSimd distances index).findIdx (·.ge target) = 8 := by
      rw [← length, findIdx_eq_length]
      exact findIdx?_eq_none_iff.mp found
    rw [absent, if_neg (lt_irrefl 8), add_comm]

/-- A hit in a lane past the end is at the end, like no hit at all. -/
theorem lowerBoundMasked_eq {index : ℕ} (target : F32) (within : index ≤ distances.length) :
    lowerBoundMasked distances distances.length target index =
      index + (distances.drop index).findIdx (·.ge target) := by
  unfold lowerBoundMasked
  by_cases more : index < distances.length
  swap
  · obtain rfl : index = distances.length := by omega
    simp
  rw [if_pos more]
  have loaded : (distances.drop index).take (distances.length - index) = distances.drop index := by
    simp
  have length : (distances.drop index).length = distances.length - index := length_drop
  rw [loadSimdFirst, loaded, firstGe, findIdx?_append]
  cases found : (distances.drop index).findIdx? (·.ge target) with
  | some offset =>
    obtain ⟨-, rfl⟩ := findIdx?_eq_some_iff_findIdx_eq.mp found
    simp
  | none =>
    have absent : (distances.drop index).findIdx (·.ge target) = distances.length - index := by
      rw [← length, findIdx_eq_length]
      exact findIdx?_eq_none_iff.mp found
    rw [absent]
    rw [findIdx?_replicate]
    split_ifs
    · simp
    · simp only [map_none, or_none]
      omega

theorem lowerBoundTail_eq {index : ℕ} (target : F32) (within : index ≤ distances.length) :
    lowerBoundTail distances distances.length target index =
      index + (distances.drop index).findIdx (·.ge target) := by
  unfold lowerBoundTail
  by_cases block : index + 8 ≤ distances.length
  · rw [if_pos block, findIdx_drop_block target block]
    cases firstGe (loadSimd distances index) target with
    | some offset => rfl
    | none =>
      rw [lowerBoundMasked_eq target block, add_assoc]
  · rw [if_neg block, lowerBoundMasked_eq target within]

theorem lowerBoundFrom_eq {index fuel : ℕ} (target : F32) (within : index ≤ distances.length)
    (enough : distances.length < index + 16 * (fuel + 1)) :
    lowerBoundFrom distances distances.length target fuel index =
      index + (distances.drop index).findIdx (·.ge target) := by
  induction fuel generalizing index with
  | zero => exact lowerBoundTail_eq target within
  | succ fuel ih =>
    unfold lowerBoundFrom
    by_cases block : index + 16 ≤ distances.length
    · rw [if_pos block, findIdx_drop_block target (by omega : index + 8 ≤ distances.length),
        findIdx_drop_block target (by omega : index + 8 + 8 ≤ distances.length)]
      cases firstGe (loadSimd distances index) target with
      | some offset => rfl
      | none =>
        cases firstGe (loadSimd distances (index + 8)) target with
        | some offset => exact add_assoc _ _ _
        | none =>
          simp only
          rw [ih block (by omega), add_assoc index 8 8]
          omega
    · rw [if_neg block]
      exact lowerBoundTail_eq target within

/-- The blocked search finds what a linear one finds. -/
theorem getLowerBound_eq (q : NeighborPriorityQueue I) (nbr : Neighbor I)
    (sized : q.distances.length = q.size) :
    q.getLowerBound nbr = q.distances.findIdx (·.ge nbr.distance) := by
  unfold getLowerBound
  rw [← sized, lowerBoundFrom_eq nbr.distance (Nat.zero_le _) (by omega), drop_zero, zero_add]

/-- The answer is the first index whose distance is at least the target, or the size. -/
theorem getLowerBound_first (q : NeighborPriorityQueue I) (nbr : Neighbor I)
    (sized : q.distances.length = q.size) :
    (∀ i < q.getLowerBound nbr, ∀ d ∈ q.distances[i]?, d.ge nbr.distance = false) ∧
      (q.getLowerBound nbr = q.size ∨
        ∃ d ∈ q.distances[q.getLowerBound nbr]?, d.ge nbr.distance = true) := by
  rw [getLowerBound_eq q nbr sized, ← sized]
  constructor
  · intro i before d stored
    obtain ⟨inside, rfl⟩ := List.getElem?_eq_some_iff.mp stored
    exact not_of_lt_findIdx before
  · rcases findIdx_le_length.eq_or_lt with absent | inside
    · exact .inl absent
    · exact .inr ⟨_, getElem?_eq_getElem inside, findIdx_getElem (p := (F32.ge · nbr.distance))⟩

/-- Nine distances: the tail holds one, and none of them reaches the target. -/
theorem getLowerBound_first_nine : let q : NeighborPriorityQueue ℕ :=
      ⟨9, 9, 0, replicate 9 (0, false), replicate 9 .zero, false, 9⟩
    q.getLowerBound ⟨1, .one⟩ = 9 ∧ ∀ i < q.getLowerBound ⟨1, .one⟩, ∀ d ∈ q.distances[i]?, d.ge .one = false :=
  ⟨by decide, (getLowerBound_first _ ⟨1, .one⟩ rfl).1⟩

end NeighborPriorityQueue

structure Slot (I : Type) where
  id : I
  visited : Bool
  distance : F32
  deriving DecidableEq, Repr

namespace Slot

variable {I : Type}

def neighbor (slot : Slot I) : Neighbor I := ⟨slot.id, slot.distance⟩

def fresh (nbr : Neighbor I) : Slot I := ⟨nbr.id, false, nbr.distance⟩

def mark (flag : Bool) (slot : Slot I) : Slot I := { slot with visited := flag }

def le (a b : Slot I) : Prop := a.distance.key ≤ b.distance.key

instance : DecidableRel (le (I := I)) := fun a b =>
  inferInstanceAs (Decidable (a.distance.key ≤ b.distance.key))

instance : Std.Total (le (I := I)) := ⟨fun a b => le_total a.distance.key b.distance.key⟩

instance : IsTrans (Slot I) le := ⟨fun _ _ _ => le_trans⟩

end Slot

structure SlotQueue (I : Type) where
  slots : List (Slot I)
  capacity : ℕ
  cursor : ℕ
  autoResizable : Bool
  searchParamL : ℕ
  sorted : slots.Pairwise Slot.le
  number : ∀ slot ∈ slots, slot.distance.isNan = false
  fits : slots.length ≤ capacity
  cursor_le : cursor ≤ slots.length

namespace SlotQueue

variable {I : Type} {nbr : Neighbor I} {s : SlotQueue I} {n : ℕ}

/-- How the source stores a slot queue. -/
def toQueue (s : SlotQueue I) : NeighborPriorityQueue I where
  size := s.slots.length
  capacity := s.capacity
  cursor := s.cursor
  idVisiteds := s.slots.map fun slot => (slot.id, slot.visited)
  distances := s.slots.map (·.distance)
  autoResizable := s.autoResizable
  searchParamL := s.searchParamL

def empty (searchParamL : ℕ) (autoResizable : Bool) : SlotQueue I where
  slots := []
  capacity := searchParamL
  cursor := 0
  autoResizable
  searchParamL
  sorted := .nil
  number := forall_mem_nil _
  fits := Nat.zero_le _
  cursor_le := Nat.zero_le _

/-! ## Reading a stored queue -/

/-- Where a distance belongs in the order: before the first slot that is not closer. -/
def lowerBound (s : SlotQueue I) (distance : F32) : ℕ :=
  s.slots.findIdx fun slot => slot.distance.ge distance

variable (s)

theorem lowerBound_le (distance : F32) : s.lowerBound distance ≤ s.slots.length :=
  findIdx_le_length

theorem toQueue_getLowerBound (nbr : Neighbor I) :
    s.toQueue.getLowerBound nbr = s.lowerBound nbr.distance := by
  rw [getLowerBound_eq _ _ (by simp [toQueue])]
  simp only [toQueue, findIdx_map]
  rfl

open Slot

theorem toQueue_getUnchecked (index : ℕ) :
    s.toQueue.getUnchecked index = s.slots[index]?.map neighbor := by
  unfold getUnchecked
  cases found : s.slots[index]? <;> simp [toQueue, found, neighbor]

theorem toQueue_get (index : ℕ) :
    s.toQueue.get index = s.slots[index]?.map neighbor := by
  unfold NeighborPriorityQueue.get
  rw [toQueue_getUnchecked]
  by_cases inside : index < s.slots.length
  · exact if_pos inside
  · rw [getElem?_eq_none (not_lt.mp inside)]
    exact ite_self none

theorem toQueue_getVisited (index : ℕ) :
    s.toQueue.getVisited index = (s.slots[index]?.map visited).getD false := by
  cases found : s.slots[index]? <;> simp [getVisited, toQueue, found]

theorem toQueue_iter :
    s.toQueue.iter = (s.slots.take s.searchParamL).map neighbor := by
  have range : ∀ n, (range n).filterMap s.toQueue.get = (s.slots.take n).map neighbor := by
    intro n
    induction n with
    | zero => simp
    | succ n ih =>
      rw [range_succ, filterMap_append, ih, take_add_one, map_append]
      cases found : s.slots[n]? <;> simp [toQueue_get, found]
  rw [NeighborPriorityQueue.iter, range]
  simp [toQueue, ← take_take]

theorem mem_ids (id : I) :
    id ∈ s.toQueue.idVisiteds.map Prod.fst ↔ ∃ slot ∈ s.slots, slot.id = id := by
  simp [toQueue]

/-! ## Insertion -/

variable (number : nbr.distance.isNan = false)
include number

theorem orderedInsert_slots :
    s.slots.orderedInsert le (.fresh nbr) =
      s.slots.insertIdx (s.lowerBound nbr.distance) (.fresh nbr) := by
  rw [orderedInsert_eq_insertIdx]
  congr 1
  refine findIdx_congr fun slot mem => ?_
  rw [Bool.eq_iff_iff, ge_iff (s.number slot mem) number, decide_eq_true_iff]
  rfl

def reserve (s : SlotQueue I) (additional : ℕ) : SlotQueue I :=
  { s with capacity := s.capacity + additional, fits := Nat.le_add_right_of_le s.fits }

/-- A sorted insertion; what exceeds the capacity falls off the end. -/
def insertOrdered (s : SlotQueue I) (nbr : Neighbor I) (number : nbr.distance.isNan = false) :
    SlotQueue I :=
  { s with
    slots := (s.slots.orderedInsert Slot.le (.fresh nbr)).take s.capacity
    cursor := min s.cursor (s.lowerBound nbr.distance)
    sorted := (s.sorted.orderedInsert _ _).sublist (take_sublist ..)
    number := by
      intro slot member
      rcases (mem_orderedInsert ..).mp (mem_of_mem_take member) with rfl | old
      · exact number
      · exact s.number slot old
    fits := length_take_le ..
    cursor_le := by
      have := s.cursor_le
      have := s.fits
      rw [length_take, orderedInsert_length]
      omega }

def insert (s : SlotQueue I) (nbr : Neighbor I) : SlotQueue I :=
  if number : nbr.distance.isNan = false then
    if s.autoResizable ∧ s.slots.length = s.capacity then
      (s.reserve (max 1 (s.capacity >>> 1))).insertOrdered nbr number
    else s.insertOrdered nbr number
  else s

/-- The stored result, when `kept` are the old slots that stay. -/
theorem toQueue_insertOrdered_of_kept
    {kept : List (Slot I)}
    (slots : (s.insertOrdered nbr number).slots =
      kept.insertIdx (s.lowerBound nbr.distance) (.fresh nbr))
    (within : s.lowerBound nbr.distance ≤ kept.length) :
    (s.insertOrdered nbr number).toQueue = { s.toQueue with
      size := kept.length + 1
      idVisiteds := (kept.map fun slot => (slot.id, slot.visited)).insertIdx
        (s.lowerBound nbr.distance) (nbr.id, false)
      distances := (kept.map (·.distance)).insertIdx (s.lowerBound nbr.distance) nbr.distance
      cursor := if s.lowerBound nbr.distance < s.cursor then s.lowerBound nbr.distance
        else s.cursor } := by
  have cursor : (s.insertOrdered nbr number).cursor =
      if s.lowerBound nbr.distance < s.cursor then s.lowerBound nbr.distance else s.cursor := by
    simp only [insertOrdered]
    split_ifs <;> omega
  unfold toQueue
  rw [slots, cursor, map_insertIdx, map_insertIdx,
    length_insertIdx_of_le_length within]
  rfl

theorem toQueue_insertOrdered
    (room : s.slots.length < s.capacity ∨ s.lowerBound nbr.distance < s.slots.length) :
    s.toQueue.insertOrdered nbr = some (s.insertOrdered nbr number).toQueue := by
  have within := s.lowerBound_le nbr.distance
  have pos : (if 0 < s.toQueue.size then s.toQueue.getLowerBound nbr else 0) =
      s.lowerBound nbr.distance := by
    rw [toQueue_getLowerBound]
    split_ifs with some
    · rfl
    · exact (Nat.le_zero.mp (within.trans (not_lt.mp some))).symm
  have slots : (s.insertOrdered nbr number).slots =
      (s.slots.insertIdx (s.lowerBound nbr.distance) (.fresh nbr)).take s.capacity := by
    rw [← s.orderedInsert_slots number]
    rfl
  unfold NeighborPriorityQueue.insertOrdered
  simp only [pos]
  by_cases full : s.slots.length = s.capacity
  · have closer : s.lowerBound nbr.distance ≤ s.slots.length - 1 := by
      omega
    rw [← full, ← Nat.sub_add_cancel (show 1 ≤ s.slots.length by omega), ← insertIdx_take _ closer]
      at slots
    rw [if_pos (show s.toQueue.size = s.toQueue.capacity from full),
      if_pos (by simp [toQueue, closer]),
      s.toQueue_insertOrdered_of_kept number slots (by simp [closer])]
    simp only [map_take, length_take, min_eq_left (Nat.sub_le ..)]
    rfl
  · rw [take_of_length_le] at slots
    swap
    · rw [length_insertIdx_of_le_length within]
      have := s.fits
      omega
    rw [if_neg (show ¬ s.toQueue.size = s.toQueue.capacity from full),
      if_pos (by simp [toQueue, within]), s.toQueue_insertOrdered_of_kept number slots within]
    rfl

/-- A neighbor that is behind every slot of a full queue leaves it as it is. -/
theorem insertOrdered_of_behind
    (full : s.slots.length = s.capacity) (behind : s.lowerBound nbr.distance = s.slots.length) :
    s.insertOrdered nbr number = s := by
  have slots : (s.slots.orderedInsert le (.fresh nbr)).take s.capacity = s.slots := by
    rw [s.orderedInsert_slots number, behind, ← full, take_insertIdx_eq_take_of_le _ _ _ _ le_rfl,
      take_length]
  have cursor : min s.cursor (s.lowerBound nbr.distance) = s.cursor := by
    rw [behind]
    exact min_eq_left s.cursor_le
  simp_all [insertOrdered]

omit number

/-- In a queue with slots the last one decides whether a distance is behind all of them. -/
theorem lowerBound_lt_length_iff {distance : F32} {last : Slot I}
    (number : distance.isNan = false) (found : s.slots.getLast? = some last) :
    s.lowerBound distance < s.slots.length ↔ last.distance.lt distance = false := by
  obtain ⟨init, split⟩ := getLast?_eq_some_iff.mp found
  have mem : last ∈ s.slots := by simp [split]
  have sorted := s.sorted
  rw [split, pairwise_append] at sorted
  have order := lt_iff (s.number last mem) number
  rw [lowerBound, findIdx_lt_length, ← Bool.not_eq_true, order, not_lt]
  constructor
  · rintro ⟨slot, inside, ge⟩
    rw [ge_iff (s.number slot inside) number] at ge
    rw [split, mem_append, mem_singleton] at inside
    rcases inside with earlier | rfl
    · exact ge.trans (sorted.2.2 slot earlier last (by simp))
    · exact ge
  · exact fun ge => ⟨last, mem, (ge_iff (s.number last mem) number).mpr ge⟩

theorem toQueue_insert
    (room : nbr.distance.isNan = true ∨ s.autoResizable = true ∨ 0 < s.capacity) :
    s.toQueue.insert nbr = some (s.insert nbr).toQueue := by
  unfold NeighborPriorityQueue.insert insert
  by_cases number : nbr.distance.isNan = false
  swap
  · rw [if_pos (by simpa using number), dif_neg number]
  rw [if_neg (by simp [number]), dif_pos number]
  have fits := s.fits
  by_cases full : s.slots.length = s.capacity
  · by_cases auto : s.autoResizable = true
    · rw [if_pos (show s.toQueue.autoResizable = true from auto),
        if_pos (show s.toQueue.size = s.toQueue.capacity from full), if_pos ⟨auto, full⟩]
      refine (s.reserve (max 1 (s.capacity >>> 1))).toQueue_insertOrdered number (.inl ?_)
      simp only [reserve]
      omega
    · rw [if_neg (show ¬ s.toQueue.autoResizable = true from auto),
        if_pos (show s.toQueue.size = s.toQueue.capacity from full)]
      have pos : s.slots ≠ [] := by
        rintro empty
        simp_all
      obtain ⟨last, found⟩ : ∃ last, s.slots.getLast? = some last :=
        ⟨_, getLast?_eq_some_getLast pos⟩
      have stored : s.toQueue.getUnchecked (s.toQueue.size - 1) = some last.neighbor := by
        rw [toQueue_getUnchecked]
        rw [getLast?_eq_getElem?] at found
        exact congrArg (Option.map _) found
      have behind := s.lowerBound_lt_length_iff number found
      rw [if_neg (show ¬ s.toQueue.size = 0 by simpa [toQueue] using pos), stored,
        if_neg fun h => auto h.1]
      cases order : last.distance.lt nbr.distance with
      | true =>
        have all : s.lowerBound nbr.distance = s.slots.length := by
          have := s.lowerBound_le nbr.distance
          rw [order] at behind
          simp at behind
          omega
        rw [s.insertOrdered_of_behind number full all]
        exact if_pos order
      | false =>
        rw [← s.toQueue_insertOrdered number (.inr (behind.mpr order))]
        exact if_neg (by simpa [neighbor] using order)
  · have auto : ¬ (s.autoResizable = true ∧ s.slots.length = s.capacity) := fun h => full h.2
    rw [if_neg (show ¬ s.toQueue.size = s.toQueue.capacity from full), if_neg auto,
      if_neg (show ¬ s.toQueue.size = s.toQueue.capacity from full), ite_self]
    exact s.toQueue_insertOrdered number (.inl (by omega))

/-! ## Removals -/

/-- Keep some of the slots, in order, with the cursor at a new place. -/
def keep (s : SlotQueue I) (slots : List (Slot I)) (sub : slots.Sublist s.slots) (cursor : ℕ)
    (cursor_le : cursor ≤ slots.length) : SlotQueue I :=
  { s with
    slots
    cursor
    sorted := s.sorted.sublist sub
    number := fun slot member => s.number slot (sub.subset member)
    fits := sub.length_le.trans s.fits
    cursor_le }

def drainBest (s : SlotQueue I) (count : ℕ) : SlotQueue I :=
  s.keep (s.slots.drop count) (drop_sublist ..) 0 (Nat.zero_le _)

theorem toQueue_drainBest (count : ℕ) :
    s.toQueue.drainBest count = (s.drainBest count).toQueue := by
  have same : s.slots.drop (min count s.slots.length) = s.slots.drop count := by
    rcases le_total count s.slots.length with le | le
    · rw [min_eq_left le]
    · rw [min_eq_right le, drop_length, drop_of_length_le le]
  simp only [NeighborPriorityQueue.drainBest, drainBest, keep, toQueue, ← map_drop, same,
    length_drop, NeighborPriorityQueue.mk.injEq, and_true]
  omega

def clear (s : SlotQueue I) : SlotQueue I := s.keep [] (nil_sublist _) 0 (Nat.zero_le _)

theorem toQueue_clear : s.toQueue.clear = s.clear.toQueue := rfl

def truncate (s : SlotQueue I) (len : ℕ) : SlotQueue I :=
  if len < s.slots.length then
    s.keep (s.slots.take len) (take_sublist ..) 0 (Nat.zero_le _)
  else s

theorem toQueue_truncate (len : ℕ) :
    s.toQueue.truncate len = (s.truncate len).toQueue := by
  unfold NeighborPriorityQueue.truncate truncate
  by_cases shorter : len < s.slots.length
  · rw [if_pos shorter, if_pos (show len < s.toQueue.size from shorter)]
    simp only [keep, toQueue, map_take, length_take, min_eq_left shorter.le]
  · rw [if_neg shorter, if_neg (show ¬ len < s.toQueue.size from shorter)]

/-- The index of the slot that `remove` takes out: it looks only at the first one that is not
closer. -/
def removeAt [DecidableEq I] (s : SlotQueue I) (nbr : Neighbor I) : Option ℕ :=
  if s.slots[s.lowerBound nbr.distance]?.map Slot.id = some nbr.id then
    some (s.lowerBound nbr.distance)
  else none

variable {s}

theorem removeAt_lt [DecidableEq I] {index : ℕ} (found : s.removeAt nbr = some index) :
    index < s.slots.length := by
  unfold removeAt at found
  split_ifs at found with match_
  cases found
  obtain ⟨slot, inside, -⟩ := map_eq_some_iff.mp match_
  exact (List.getElem?_eq_some_iff.mp inside).1

def eraseIdx (s : SlotQueue I) (index : ℕ) (inside : index < s.slots.length) : SlotQueue I :=
  s.keep (s.slots.eraseIdx index) (eraseIdx_sublist ..)
    (if index < s.cursor then s.cursor - 1 else s.cursor) (by
      have := s.cursor_le
      rw [length_eraseIdx_of_lt inside]
      split_ifs <;> omega)

def remove [DecidableEq I] (s : SlotQueue I) (nbr : Neighbor I) : SlotQueue I :=
  match found : s.removeAt nbr with
  | some index => s.eraseIdx index (removeAt_lt found)
  | none => s

theorem remove_of_some [DecidableEq I] {index : ℕ} (found : s.removeAt nbr = some index) :
    s.remove nbr = s.eraseIdx index (removeAt_lt found) := by
  unfold remove
  split
  · rename_i other same
    obtain rfl := some.inj (same.symm.trans found)
    rfl
  · simp_all

theorem remove_of_none [DecidableEq I] (absent : s.removeAt nbr = none) : s.remove nbr = s := by
  unfold remove
  split <;> simp_all

variable (s)

theorem toQueue_eraseIdx {index : ℕ} (inside : index < s.slots.length) :
    (s.eraseIdx index inside).toQueue = { s.toQueue with
      idVisiteds := s.toQueue.idVisiteds.eraseIdx index
      distances := s.toQueue.distances.eraseIdx index
      size := s.toQueue.size - 1
      cursor := if index < s.toQueue.cursor ∧ 0 < s.toQueue.cursor then s.toQueue.cursor - 1
        else s.toQueue.cursor } := by
  have both : (index < s.cursor ∧ 0 < s.cursor) ↔ index < s.cursor := by omega
  simp only [eraseIdx, keep, toQueue, eraseIdx_map, length_eraseIdx_of_lt inside, both]

theorem toQueue_remove [DecidableEq I] (nbr : Neighbor I) :
    s.toQueue.remove nbr = ((s.removeAt nbr).isSome, (s.remove nbr).toQueue) := by
  have stored : (s.toQueue.getUnchecked (s.lowerBound nbr.distance)).map (·.id) =
      s.slots[s.lowerBound nbr.distance]?.map Slot.id := by
    rw [toQueue_getUnchecked, Option.map_map]
    rfl
  unfold NeighborPriorityQueue.remove
  simp only [toQueue_getLowerBound, stored]
  cases found : s.removeAt nbr with
  | some index =>
    have inside := removeAt_lt found
    rw [remove_of_some found, toQueue_eraseIdx]
    unfold removeAt at found
    split_ifs at found with same
    cases found
    rw [if_neg (show ¬ s.toQueue.size = 0 from (Nat.zero_lt_of_lt inside).ne'),
      if_pos ⟨inside, same⟩]
    rfl
  | none =>
    rw [remove_of_none found]
    unfold removeAt at found
    split_ifs at found with other
    simp only [other, and_false, if_false, ite_self]
    rfl

def reconfigure (s : SlotQueue I) (searchParamL : ℕ) : SlotQueue I :=
  { s.keep (s.slots.take searchParamL) (take_sublist ..) (min s.cursor searchParamL) (by
      have := s.cursor_le
      rw [length_take]
      omega) with
    capacity := searchParamL
    searchParamL
    fits := length_take_le .. }

theorem toQueue_reconfigure (searchParamL : ℕ) :
    s.toQueue.reconfigure searchParamL = (s.reconfigure searchParamL).toQueue := by
  unfold NeighborPriorityQueue.reconfigure
  by_cases shorter : searchParamL < s.slots.length
  · simp only [reconfigure, keep, toQueue, shorter, if_true, map_take, length_take,
      min_eq_left shorter.le]
  · have cursor : min s.cursor searchParamL = s.cursor := by
      have := s.cursor_le
      omega
    simp only [reconfigure, keep, toQueue, shorter, if_false, cursor,
      take_of_length_le (not_lt.mp shorter)]

/-! ## Flags -/

/-- Change flags, and move the cursor. -/
def reflag (s : SlotQueue I) (slots : List (Slot I))
    (same : slots.map (·.distance) = s.slots.map (·.distance)) (cursor : ℕ)
    (cursor_le : cursor ≤ slots.length) : SlotQueue I :=
  { s with
    slots
    cursor
    sorted := by
      have sorted : (s.slots.map (·.distance)).Pairwise (·.key ≤ ·.key) :=
        pairwise_map.mpr s.sorted
      rw [← same] at sorted
      rwa [pairwise_map] at sorted
    number := by
      have number : ∀ distance ∈ s.slots.map (·.distance), distance.isNan = false :=
        forall_mem_map.mpr s.number
      rw [← same] at number
      exact forall_mem_map.mp number
    fits := by
      have length := congrArg length same
      rw [length_map, length_map] at length
      exact length.trans_le s.fits
    cursor_le }

/-- The first slot from `index` on that is not visited. -/
def nextUnvisited (slots : List (Slot I)) (index : ℕ) : ℕ :=
  index + (slots.drop index).findIdx fun slot => !slot.visited

theorem nextUnvisited_le {slots : List (Slot I)} {index : ℕ} (within : index ≤ slots.length) :
    nextUnvisited slots index ≤ slots.length := by
  have found : (slots.drop index).findIdx (fun slot => !slot.visited) ≤ slots.length - index :=
    findIdx_le_length.trans_eq length_drop
  unfold nextUnvisited
  omega

theorem map_distance_mark (slots : List (Slot I)) (index : ℕ) (flag : Bool) :
    (slots.modify index (.mark flag)).map (·.distance) = slots.map (·.distance) := by
  rw [map_modify (mark flag) (fun slot => slot.distance) id fun _ => rfl, modify_id]

def markCursor (s : SlotQueue I) : SlotQueue I :=
  s.reflag (s.slots.modify s.cursor (.mark true)) (map_distance_mark ..) s.cursor
    (s.cursor_le.trans_eq (length_modify ..).symm)

theorem length_markCursor : s.markCursor.slots.length = s.slots.length :=
  length_modify ..

/-- The slot at the cursor becomes visited, and the cursor goes on to the next one that is not. -/
def visit (s : SlotQueue I) (inside : s.cursor < s.slots.length) : SlotQueue I :=
  { s.markCursor with
    cursor := nextUnvisited s.markCursor.slots (s.cursor + 1)
    cursor_le := nextUnvisited_le (by rw [length_markCursor]; exact inside) }

def closestNotvisited (s : SlotQueue I) : Option (Neighbor I) × SlotQueue I :=
  if inside : s.cursor < min s.searchParamL s.slots.length then
    (s.slots[s.cursor]?.map Slot.neighbor, s.visit (inside.trans_le (min_le_right ..)))
  else (none, s)

variable {s}

theorem skipVisited_eq {fuel index : ℕ} (enough : s.slots.length ≤ index + fuel)
    (within : index ≤ s.slots.length) :
    s.toQueue.skipVisited fuel index = nextUnvisited s.slots index := by
  induction fuel generalizing index with
  | zero =>
    obtain rfl : index = s.slots.length := by omega
    simp [skipVisited, nextUnvisited]
  | succ fuel ih =>
    rw [skipVisited, toQueue_getVisited]
    by_cases inside : index < s.slots.length
    swap
    · obtain rfl : index = s.slots.length := by omega
      simp [nextUnvisited]
    · rw [getElem?_eq_getElem inside]
      by_cases seen : s.slots[index].visited = true
      · rw [if_pos ⟨inside, by simpa using seen⟩, ih (by omega) inside]
        unfold nextUnvisited
        rw [drop_eq_getElem_cons inside, findIdx_cons]
        simp [seen]
        omega
      · unfold nextUnvisited
        rw [drop_eq_getElem_cons inside, findIdx_cons]
        simp [seen]

theorem toQueue_markCursor (s : SlotQueue I) (inside : s.cursor < s.slots.length) :
    s.toQueue.setVisited s.cursor true = some s.markCursor.toQueue := by
  unfold setVisited
  rw [if_pos (show s.cursor < s.toQueue.size ∧ s.toQueue.size ≤ s.toQueue.capacity from
    ⟨inside, s.fits⟩)]
  simp only [toQueue, markCursor, reflag, length_modify, map_distance_mark,
    map_modify (.mark true) (fun slot : Slot I => (slot.id, slot.visited))
      (fun entry => (entry.1, true)) fun _ => rfl]

theorem toQueue_closestNotvisited (s : SlotQueue I) :
    s.toQueue.closestNotvisited =
      some (s.closestNotvisited.1, s.closestNotvisited.2.toQueue) := by
  unfold NeighborPriorityQueue.closestNotvisited closestNotvisited
  by_cases more : s.cursor < min s.searchParamL s.slots.length
  swap
  · have none : s.toQueue.hasNotvisitedNode = false := by
      simpa [hasNotvisitedNode, toQueue] using more
    rw [none, dif_neg more]
    rfl
  · have inside : s.cursor < s.slots.length := more.trans_le (min_le_right ..)
    have some : s.toQueue.hasNotvisitedNode = true := by
      simpa [hasNotvisitedNode, toQueue] using more
    have next : s.markCursor.toQueue.skipVisited s.markCursor.toQueue.size (s.cursor + 1) =
        nextUnvisited s.markCursor.slots (s.cursor + 1) :=
      skipVisited_eq (Nat.le_add_left ..) (by rw [length_markCursor]; exact inside)
    have moved : { s.markCursor.toQueue with
        cursor := nextUnvisited s.markCursor.slots (s.cursor + 1) } = (s.visit inside).toQueue := rfl
    rw [some, dif_pos more]
    simp only [show s.toQueue.cursor = s.cursor from rfl, s.toQueue_markCursor inside,
      bind_eq_bind, bind_some, next, moved, toQueue_getUnchecked]
    have answer : (s.visit inside).slots[s.cursor]?.map neighbor =
        Option.some s.slots[s.cursor].neighbor := by
      simp [visit, markCursor, reflag, getElem?_eq_getElem inside, mark, neighbor]
    rw [answer, getElem?_eq_getElem inside]
    rfl

/-! ## Retain -/

/-- The compaction loop: `done` is written, `mid` is free to be overwritten, `todo` is unread. -/
theorem retainFrom_eq (keep : Neighbor I → Bool) (done mid todo : List (Slot I))
    (q : NeighborPriorityQueue I) (size : q.size = (done ++ mid ++ todo).length)
    (ids : q.idVisiteds = (done ++ mid ++ todo).map fun slot => (slot.id, slot.visited))
    (distances : q.distances = (done ++ mid ++ todo).map (·.distance)) :
    ∃ kept rest, kept = done ++ (todo.filter fun slot => keep slot.neighbor).map (.mark false) ∧
      (kept ++ rest).length = q.size ∧
      retainFrom keep todo.length done.length q = (kept.length, { q with
        idVisiteds := (kept ++ rest).map fun slot => (slot.id, slot.visited)
        distances := (kept ++ rest).map (·.distance) }) := by
  induction todo generalizing done mid q with
  | nil =>
    refine ⟨done, mid, by simp, by simpa using size.symm, ?_⟩
    cases q
    simp_all [retainFrom]
  | cons slot todo ih =>
    have read : q.size - (todo.length + 1) = (done ++ mid).length := by
      simp only [length_append, length_cons] at size ⊢
      omega
    have entry : q.idVisiteds[(done ++ mid).length]? = some (slot.id, slot.visited) := by
      simp [ids]
    have distance : q.distances[(done ++ mid).length]? = some slot.distance := by
      simp [distances]
    rw [length_cons, retainFrom]
    simp only [read, entry, distance]
    by_cases kept : keep ⟨slot.id, slot.distance⟩ = true
    · -- the written slot is the first of those read and not yet overwritten
      obtain ⟨old, mid', split⟩ : ∃ old mid', mid ++ [slot] = old :: mid' :=
        exists_cons_of_ne_nil (by simp)
      have before : done ++ mid ++ slot :: todo = done ++ old :: (mid' ++ todo) := by
        rw [append_assoc, ← singleton_append, ← append_assoc mid, split]
        rfl
      obtain ⟨kept', rest, equal, length, run⟩ := ih (done ++ [slot.mark false]) mid'
        { q with
          idVisiteds := q.idVisiteds.set done.length (slot.id, false)
          distances := q.distances.set done.length slot.distance }
        (by rw [size, before]; simp)
        (by rw [ids, before]; simp [mark])
        (by rw [distances, before]; simp [mark])
      refine ⟨kept', rest, ?_, length, ?_⟩
      · simp [equal, show keep slot.neighbor = true from kept]
      · rw [if_pos kept, ← run]
        simp
    · obtain ⟨kept', rest, equal, length, run⟩ := ih done (mid ++ [slot]) q (by simpa using size)
        (by simpa using ids) (by simpa using distances)
      refine ⟨kept', rest, ?_, length, ?_⟩
      · simp [equal, show ¬ keep slot.neighbor = true from kept]
      · rw [if_neg kept, run]

def retain (s : SlotQueue I) (keep : Neighbor I → Bool) : SlotQueue I :=
  let kept := s.slots.filter fun slot => keep slot.neighbor
  (s.keep kept filter_sublist 0 (Nat.zero_le _)).reflag (kept.map (.mark false))
    (by simp [SlotQueue.keep, kept, Function.comp_def, Slot.mark])
    (if kept.length < s.slots.length then 0 else s.cursor) (by
      have := s.cursor_le
      rw [length_map]
      split_ifs <;> omega)

theorem toQueue_retain (s : SlotQueue I) (keep : Neighbor I → Bool) :
    s.toQueue.retain keep = (s.retain keep).toQueue := by
  unfold NeighborPriorityQueue.retain
  by_cases empty : s.slots.length = 0
  · have nil := eq_nil_of_length_eq_zero empty
    simp [retain, SlotQueue.keep, reflag, toQueue, nil]
  · rw [if_neg (show ¬ s.toQueue.size = 0 from empty)]
    obtain ⟨kept, rest, equal, length, run⟩ := retainFrom_eq keep [] [] s.slots s.toQueue rfl rfl rfl
    rw [nil_append] at equal
    have count : kept.length = (s.slots.filter fun slot => keep slot.neighbor).length := by
      rw [equal, length_map]
    change (kept ++ rest).length = s.slots.length at length
    rw [length_append] at length
    rw [length_nil] at run
    simp only [show s.toQueue.size = s.slots.length from rfl, run]
    have slots : (s.retain keep).slots = kept := equal.symm
    have cursor : (s.retain keep).cursor = if kept.length < s.slots.length then 0 else s.cursor := by
      rw [count]
      rfl
    unfold NeighborPriorityQueue.truncate toQueue
    rw [slots, cursor]
    by_cases shorter : kept.length < s.slots.length
    · simpa [shorter] using ⟨rfl, rfl, rfl⟩
    · obtain rfl : rest = [] := eq_nil_of_length_eq_zero (by omega)
      simpa [shorter] using ⟨length.symm, rfl, rfl, rfl⟩

/-! ## Queues of a fixed capacity -/

/-- The queue was made by `new(n)`. -/
structure Fixed (s : SlotQueue I) (n : ℕ) : Prop where
  autoResizable : s.autoResizable = false
  capacity : s.capacity = n
  searchParamL : s.searchParamL = n

variable (fixed : s.Fixed n)
include fixed

theorem Fixed.insert (nbr : Neighbor I) : (s.insert nbr).Fixed n := by
  unfold SlotQueue.insert
  split_ifs with number grow
  · simp [fixed.autoResizable] at grow
  · exact ⟨fixed.autoResizable, fixed.capacity, fixed.searchParamL⟩
  · exact fixed

theorem Fixed.remove [DecidableEq I] (nbr : Neighbor I) :
    (s.remove nbr).Fixed n := by
  cases found : s.removeAt nbr with
  | some index =>
    rw [remove_of_some found]
    exact ⟨fixed.autoResizable, fixed.capacity, fixed.searchParamL⟩
  | none => rwa [remove_of_none found]

theorem Fixed.closestNotvisited : s.closestNotvisited.2.Fixed n := by
  unfold SlotQueue.closestNotvisited
  split_ifs
  · exact ⟨fixed.autoResizable, fixed.capacity, fixed.searchParamL⟩
  · exact fixed

theorem Fixed.isFull_iff :
    s.toQueue.isFull = true ↔ s.slots.length = s.capacity := by
  simp [isFull, toQueue, fixed.autoResizable]

theorem Fixed.lt_capacity (room : s.toQueue.isFull = false) :
    s.slots.length < s.capacity := by
  refine lt_of_le_of_ne s.fits fun full => ?_
  rw [fixed.isFull_iff.mpr full] at room
  cases room

/-- `get(n - 1)` of a full queue is its last slot. -/
theorem Fixed.get_of_full (full : s.slots.length = s.capacity) :
    s.toQueue.get (n - 1) = s.slots.getLast?.map neighbor := by
  rw [toQueue_get, getLast?_eq_getElem?, full, fixed.capacity]

theorem Fixed.exists_last (pos : 0 < n)
    (full : s.slots.length = s.capacity) :
    ∃ last, s.slots.getLast? = some last ∧ s.toQueue.get (n - 1) = some last.neighbor := by
  have nonempty : s.slots ≠ [] := by
    rw [← length_pos_iff, full, fixed.capacity]
    exact pos
  have last := getLast?_eq_some_getLast nonempty
  refine ⟨_, last, ?_⟩
  rw [fixed.get_of_full full, last]
  rfl

/-! ## The neighbors held -/

def neighbors (s : SlotQueue I) : List (Neighbor I) := s.slots.map Slot.neighbor

omit fixed

variable (s)

theorem length_neighbors : s.neighbors.length = s.slots.length :=
  length_map ..

/-- An insertion puts the fresh slot somewhere, and may lose slots at the end. -/
theorem insert_slots_subperm (nbr : Neighbor I) :
    (s.insert nbr).slots.Subperm (.fresh nbr :: s.slots) := by
  have taken : ∀ n, ((s.slots.orderedInsert le (.fresh nbr)).take n).Subperm
      (.fresh nbr :: s.slots) := fun n =>
    (take_sublist ..).subperm.trans (perm_orderedInsert ..).subperm
  unfold insert
  split_ifs with number grow
  · exact taken _
  · exact taken _
  · exact (sublist_cons_self ..).subperm

theorem neighbors_insert_subset (nbr : Neighbor I) :
    (s.insert nbr).neighbors ⊆ nbr :: s.neighbors :=
  map_subset neighbor (s.insert_slots_subperm nbr).subset

theorem insert_of_nan (nan : nbr.distance.isNan = true) : s.insert nbr = s := by
  unfold insert
  rw [dif_neg (by simp [nan])]

/-- An insertion that has room loses nothing. -/
theorem insert_slots_of_room (number : nbr.distance.isNan = false)
    (room : s.autoResizable = true ∨ s.slots.length < s.capacity) :
    (s.insert nbr).slots = s.slots.orderedInsert le (.fresh nbr) := by
  unfold insert
  split_ifs with grow
  · refine take_of_length_le ?_
    rw [orderedInsert_length]
    simp only [reserve]
    omega
  · refine take_of_length_le ?_
    have := s.fits
    rw [orderedInsert_length]
    rcases room with auto | room
    · simp only [auto, true_and] at grow
      omega
    · exact room

theorem perm_insert_of_room (nbr : Neighbor I)
    (number : nbr.distance.isNan = false)
    (room : s.autoResizable = true ∨ s.slots.length < s.capacity) :
    (s.insert nbr).neighbors.Perm (nbr :: s.neighbors) := by
  unfold neighbors
  rw [s.insert_slots_of_room number room]
  exact (perm_orderedInsert ..).map neighbor

/-- A closer neighbor puts the last one out of a full queue. -/
theorem perm_insert_of_full (nbr : Neighbor I) {last : Slot I}
    (number : nbr.distance.isNan = false) (fixed : s.autoResizable = false)
    (full : s.slots.length = s.capacity) (found : s.slots.getLast? = some last)
    (closer : nbr.distance.lt last.distance = true) :
    (last.neighbor :: (s.insert nbr).neighbors).Perm (nbr :: s.neighbors) := by
  have before : s.lowerBound nbr.distance < s.slots.length := by
    rw [s.lowerBound_lt_length_iff number found]
    have mem := s.number last (mem_of_getLast? found)
    rw [lt_iff number mem] at closer
    rw [← Bool.not_eq_true, lt_iff mem number]
    omega
  obtain ⟨init, split⟩ := getLast?_eq_some_iff.mp found
  have length : s.slots.length = init.length + 1 := by simp [split]
  have slots : (s.insert nbr).slots = init.insertIdx (s.lowerBound nbr.distance) (.fresh nbr) := by
    unfold insert
    rw [dif_pos number, if_neg (by simp [fixed])]
    change (s.slots.orderedInsert le (.fresh nbr)).take s.capacity = _
    rw [s.orderedInsert_slots number, ← full, length, ← insertIdx_take _ (by omega), split]
    simp
  unfold neighbors
  rw [slots, split]
  have inserted := (perm_insertIdx (.fresh nbr) init (by omega :
    s.lowerBound nbr.distance ≤ init.length)).map neighbor
  rw [map_append]
  refine (Perm.cons _ inserted).trans ?_
  refine (Perm.swap ..).trans (Perm.cons _ ?_)
  exact (perm_append_singleton ..).symm

variable {s}

theorem perm_remove [DecidableEq I] {index : ℕ} (found : s.removeAt nbr = some index) :
    ∃ removed ∈ s.neighbors, removed.id = nbr.id ∧
      s.neighbors.Perm (removed :: (s.remove nbr).neighbors) := by
  have inside := removeAt_lt found
  refine ⟨s.slots[index].neighbor, mem_map_of_mem (getElem_mem inside), ?_, ?_⟩
  · unfold removeAt at found
    split_ifs at found with same
    cases found
    rw [getElem?_eq_getElem inside] at same
    exact some.inj same
  · rw [remove_of_some found]
    exact (getElem_cons_eraseIdx_perm inside).symm.map neighbor

theorem neighbors_remove_subset [DecidableEq I] (s : SlotQueue I) (nbr : Neighbor I) :
    (s.remove nbr).neighbors ⊆ s.neighbors := by
  cases found : s.removeAt nbr with
  | some index =>
    rw [remove_of_some found]
    exact map_subset neighbor (eraseIdx_sublist ..).subset
  | none => rw [remove_of_none found]; exact Subset.refl _

/-- A closer neighbor does not hide one that `remove` finds. -/
theorem removeAt_insert [DecidableEq I] {other : Neighbor I} {index : ℕ}
    (number : other.distance.isNan = false) (closer : nbr.distance.lt other.distance = true)
    (room : s.autoResizable = true ∨ s.slots.length < s.capacity)
    (found : s.removeAt other = some index) :
    ∃ index', (s.insert nbr).removeAt other = some index' := by
  have numberNbr : nbr.distance.isNan = false := by simp_all [lt]
  have closer := (lt_iff numberNbr number).mp closer
  have before : s.lowerBound nbr.distance ≤ s.lowerBound other.distance := by
    refine findIdx_le_findIdx fun slot mem ge => ?_
    have numberSlot := s.number slot mem
    rw [ge_iff numberSlot number] at ge
    rw [ge_iff numberSlot numberNbr]
    omega
  have fails : (fresh nbr).distance.ge other.distance = false :=
    (ge_eq_false_iff numberNbr number).mpr closer
  have slots : (s.insert nbr).slots =
      s.slots.insertIdx (s.lowerBound nbr.distance) (.fresh nbr) := by
    rw [s.insert_slots_of_room numberNbr room, s.orderedInsert_slots numberNbr]
  have bound : (s.insert nbr).lowerBound other.distance = s.lowerBound other.distance + 1 := by
    rw [lowerBound, slots]
    exact findIdx_insertIdx_of_le (p := fun slot : Slot I => slot.distance.ge other.distance)
      fails before
  unfold removeAt at found ⊢
  split_ifs at found with same
  have there : (s.insert nbr).slots[s.lowerBound other.distance + 1]?.map Slot.id = some other.id := by
    rw [slots, getElem?_insertIdx_of_gt (Nat.lt_succ_of_le before)]
    exact same
  rw [bound, if_pos there]
  exact ⟨_, rfl⟩

theorem neighbors_closestNotvisited (s : SlotQueue I) :
    s.closestNotvisited.2.neighbors = s.neighbors := by
  unfold closestNotvisited
  split_ifs
  · change (s.slots.modify s.cursor (.mark true)).map neighbor = s.slots.map neighbor
    rw [map_modify (mark true) neighbor id fun _ => rfl, modify_id]
  · rfl

end SlotQueue

end DiskAnn
