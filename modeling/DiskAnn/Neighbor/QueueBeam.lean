import DiskAnn.Neighbor.QueueContents

/-! # Insertions and visits in a row

What a hop of a search does with the queue: it takes a beam of entries as visited, and inserts the
neighbors it has found.
-/

namespace DiskAnn

open List Slot

namespace SlotQueue

variable {I : Type} {s : SlotQueue I} {nbrs : List (Neighbor I)}

/-! ## Several insertions -/

def HasRoom (s : SlotQueue I) : Prop := s.autoResizable = true ∨ 0 < s.capacity

def insertAll (s : SlotQueue I) (nbrs : List (Neighbor I)) : SlotQueue I := nbrs.foldl insert s

theorem insertAll_cons (s : SlotQueue I) (nbr : Neighbor I) (nbrs : List (Neighbor I)) :
    s.insertAll (nbr :: nbrs) = (s.insert nbr).insertAll nbrs := rfl

theorem insert_capacity_le (s : SlotQueue I) (nbr : Neighbor I) :
    s.capacity ≤ (s.insert nbr).capacity := by
  unfold insert
  split_ifs
  · exact Nat.le_add_right ..
  · exact le_rfl
  · exact le_rfl

theorem insert_searchParamL (s : SlotQueue I) (nbr : Neighbor I) :
    (s.insert nbr).searchParamL = s.searchParamL := by
  unfold insert
  split_ifs <;> rfl

theorem HasRoom.insert (room : s.HasRoom) (nbr : Neighbor I) : (s.insert nbr).HasRoom := by
  rcases room with auto | pos
  · exact .inl ((s.insert_autoResizable nbr).trans auto)
  · exact .inr (pos.trans_le (s.insert_capacity_le nbr))

theorem HasRoom.toQueue_insertAll (room : s.HasRoom) (nbrs : List (Neighbor I)) :
    s.toQueue.insertAll nbrs = some (s.insertAll nbrs).toQueue := by
  induction nbrs generalizing s with
  | nil => rfl
  | cons nbr nbrs ih =>
    rw [NeighborPriorityQueue.insertAll, foldlM_cons, s.toQueue_insert (.inr room)]
    exact ih (room.insert nbr)

theorem HasRoom.insertAll (room : s.HasRoom) (nbrs : List (Neighbor I)) :
    (s.insertAll nbrs).HasRoom := by
  induction nbrs generalizing s with
  | nil => exact room
  | cons nbr nbrs ih => exact ih (room.insert nbr)

theorem insertAll_autoResizable (s : SlotQueue I) (nbrs : List (Neighbor I)) :
    (s.insertAll nbrs).autoResizable = s.autoResizable := by
  induction nbrs generalizing s with
  | nil => rfl
  | cons nbr nbrs ih => exact (ih _).trans (s.insert_autoResizable nbr)

theorem insertAll_searchParamL (s : SlotQueue I) (nbrs : List (Neighbor I)) :
    (s.insertAll nbrs).searchParamL = s.searchParamL := by
  induction nbrs generalizing s with
  | nil => rfl
  | cons nbr nbrs ih => exact (ih _).trans (s.insert_searchParamL nbr)

theorem Behind.insertOrdered (behind : s.Behind) {nbr : Neighbor I}
    (number : nbr.distance.isNan = false) : (s.insertOrdered nbr number).Behind := by
  have bound := s.cursor_le.trans s.fits
  change min s.cursor _ ≤ findIdx _ (take s.capacity _)
  rw [s.orderedInsert_slots number, findIdx_take,
    findIdx_insertIdx (by simp [fresh]) (s.lowerBound_le _)]
  unfold Behind at behind
  omega

theorem Behind.insert (behind : s.Behind) (nbr : Neighbor I) : (s.insert nbr).Behind := by
  unfold SlotQueue.insert
  split_ifs with number grow
  · have reserved : (s.reserve (max 1 (s.capacity >>> 1))).Behind := behind
    exact reserved.insertOrdered number
  · exact behind.insertOrdered number
  · exact behind

theorem Behind.insertAll (behind : s.Behind) (nbrs : List (Neighbor I)) :
    (s.insertAll nbrs).Behind := by
  induction nbrs generalizing s with
  | nil => exact behind
  | cons nbr nbrs ih => exact ih (behind.insert nbr)

theorem Settled.insertAll (settled : s.Settled) (nbrs : List (Neighbor I)) :
    (s.insertAll nbrs).Settled := by
  induction nbrs generalizing s with
  | nil => exact settled
  | cons nbr nbrs ih => exact ih (settled.insert nbr)

theorem insertAll_slots_subperm (s : SlotQueue I) (nbrs : List (Neighbor I)) :
    (s.insertAll nbrs).slots.Subperm (nbrs.map .fresh ++ s.slots) := by
  induction nbrs generalizing s with
  | nil => exact .refl _
  | cons nbr nbrs ih =>
    refine (ih (s.insert nbr)).trans ?_
    refine ((subperm_append_left _).mpr (s.insert_slots_subperm nbr)).trans ?_
    exact perm_middle.subperm

theorem mem_insertAll_slots {slot : Slot I} (mem : slot ∈ (s.insertAll nbrs).slots) :
    (∃ nbr ∈ nbrs, .fresh nbr = slot) ∨ slot ∈ s.slots := by
  have held := (s.insertAll_slots_subperm nbrs).subset mem
  rwa [mem_append, mem_map] at held

theorem Distinct.insertAll (distinct : (nbrs.map (·.id) ++ s.slots.map Slot.id).Nodup) :
    (s.insertAll nbrs).Distinct := by
  obtain ⟨held, perm, sublist⟩ := s.insertAll_slots_subperm nbrs
  have ids : (nbrs.map Slot.fresh ++ s.slots).map Slot.id = nbrs.map (·.id) ++ s.slots.map Slot.id := by
    rw [map_append, map_map]
    rfl
  rw [← ids] at distinct
  exact (perm.map Slot.id).nodup_iff.mp ((sublist.map Slot.id).nodup distinct)

/-- A queue of fixed capacity keeps the first of all slots in order. -/
theorem Fixed.insertAll_fixed {c : ℕ} (fixed : s.Fixed c) (nbrs : List (Neighbor I)) :
    (s.insertAll nbrs).Fixed c := by
  induction nbrs generalizing s with
  | nil => exact fixed
  | cons nbr nbrs ih => exact ih (fixed.insert nbr)

theorem Fixed.insertAll_slots {c : ℕ} (fixed : s.Fixed c) {slots : List (Slot I)}
    (held : s.slots = slots.take c) (numbers : ∀ nbr ∈ nbrs, nbr.distance.isNan = false) :
    (s.insertAll nbrs).Fixed c ∧ (s.insertAll nbrs).slots = (ordered slots nbrs).take c := by
  induction nbrs generalizing s slots with
  | nil => exact ⟨fixed, held⟩
  | cons nbr nbrs ih =>
    obtain ⟨number, numbers⟩ := forall_mem_cons.mp numbers
    refine ih (fixed.insert nbr) ?_ numbers
    rw [fixed.insert_slots number, held, take_orderedInsert_take]

/-- A resizable queue keeps everything that has a distance. -/
theorem perm_insertAll_of_autoResizable (auto : s.autoResizable = true) (nbrs : List (Neighbor I)) :
    (s.insertAll nbrs).neighbors.Perm
      (nbrs.filter (fun nbr => !nbr.distance.isNan) ++ s.neighbors) := by
  induction nbrs generalizing s with
  | nil => exact .refl _
  | cons nbr nbrs ih =>
    have inserted := ih ((s.insert_autoResizable nbr).trans auto)
    rw [insertAll_cons]
    cases number : nbr.distance.isNan with
    | true =>
      rw [s.insert_of_nan number] at inserted
      rw [s.insert_of_nan number, filter_cons_of_neg (by simp [number])]
      exact inserted
    | false =>
      rw [filter_cons_of_pos (by simp [number])]
      refine inserted.trans ?_
      refine ((s.perm_insert_of_room nbr number (.inl auto)).append_left _).trans ?_
      exact perm_middle

/-! ## A beam of entries -/

theorem Seen.closestNotvisited [DecidableEq I] {id : I} (seen : s.Seen id) :
    s.closestNotvisited.2.Seen id :=
  @Seen.step I s _ id seen .closestNotvisited fun resets => resets

theorem Distinct.closestNotvisited [DecidableEq I] (distinct : s.Distinct) :
    s.closestNotvisited.2.Distinct :=
  @Distinct.step I s _ distinct .closestNotvisited trivial

/-- The entries that calls of `closest_notvisited` answer, and the queue after them. -/
inductive Beam : SlotQueue I → List (Neighbor I) → SlotQueue I → Prop where
  | done (s : SlotQueue I) : Beam s [] s
  | visit {s t : SlotQueue I} {nbr : Neighbor I} {beam : List (Neighbor I)}
      (answer : s.closestNotvisited.1 = some nbr) (rest : Beam s.closestNotvisited.2 beam t) :
      Beam s (nbr :: beam) t

theorem closestNotvisited_of_none (answer : s.closestNotvisited.1 = none) :
    s.closestNotvisited.2 = s := by
  unfold closestNotvisited at answer ⊢
  split_ifs at answer ⊢ with more
  · have inside : s.cursor < s.slots.length := more.trans_le (min_le_right ..)
    rw [getElem?_eq_getElem inside] at answer
    cases answer
  · rfl

theorem closestNotvisited_isSome_iff (s : SlotQueue I) :
    s.closestNotvisited.1.isSome = true ↔ s.toQueue.hasNotvisitedNode = true := by
  unfold closestNotvisited
  split_ifs with more
  · have inside : s.cursor < s.slots.length := more.trans_le (min_le_right ..)
    rw [getElem?_eq_getElem inside]
    exact iff_of_true rfl (decide_eq_true more)
  · exact iff_of_false (by simp) fun has => more (of_decide_eq_true has)

namespace Beam

variable {s t : SlotQueue I} {beam : List (Neighbor I)} (walked : Beam s beam t)
include walked

theorem neighbors : t.neighbors = s.neighbors := by
  induction walked with
  | done => rfl
  | visit answer rest ih => exact ih.trans (neighbors_closestNotvisited _)

theorem length : t.slots.length = s.slots.length := by
  rw [← length_neighbors, walked.neighbors, length_neighbors]

theorem ids : t.slots.map Slot.id = s.slots.map Slot.id := by
  have same := congrArg (map Neighbor.id) walked.neighbors
  rwa [SlotQueue.neighbors, SlotQueue.neighbors, map_map, map_map] at same

theorem distinct (distinct : s.Distinct) : t.Distinct := by
  unfold SlotQueue.Distinct
  rw [walked.ids]
  exact distinct

theorem configuration : t.capacity = s.capacity ∧
    t.autoResizable = s.autoResizable ∧ t.searchParamL = s.searchParamL := by
  induction walked with
  | done => exact ⟨rfl, rfl, rfl⟩
  | @visit s t nbr beam answer rest ih =>
    obtain ⟨inside, -, visited⟩ := closestNotvisited_eq_of_some answer
    rw [visited] at ih
    exact ih

theorem fixed {c : ℕ} (fixed : s.Fixed c) : t.Fixed c := by
  obtain ⟨capacity, auto, param⟩ := walked.configuration
  exact ⟨auto.trans fixed.autoResizable, capacity.trans fixed.capacity,
    param.trans fixed.searchParamL⟩

theorem hasRoom (room : s.HasRoom) : t.HasRoom := by
  obtain ⟨capacity, auto, -⟩ := walked.configuration
  unfold HasRoom
  rwa [capacity, auto]

theorem settled (settled : s.Settled) : t.Settled := by
  induction walked with
  | done => exact settled
  | visit answer rest ih => exact ih settled.closestNotvisited

theorem subset : ∀ nbr ∈ beam, nbr ∈ s.neighbors := by
  induction walked with
  | done => exact forall_mem_nil _
  | @visit s t nbr beam answer rest ih =>
    rw [neighbors_closestNotvisited] at ih
    obtain ⟨inside, rfl, -⟩ := closestNotvisited_eq_of_some answer
    exact forall_mem_cons.mpr ⟨mem_map_of_mem (getElem_mem inside), ih⟩

/-- The cursor moves on with every entry. -/
theorem cursor_le : s.cursor + beam.length ≤ t.cursor := by
  induction walked with
  | done => exact le_rfl
  | @visit s t nbr beam answer rest ih =>
    obtain ⟨inside, -, visited⟩ := closestNotvisited_eq_of_some answer
    have moved : s.cursor + 1 ≤ s.closestNotvisited.2.cursor := by
      rw [visited]
      exact Nat.le_add_right ..
    rw [length_cons]
    omega

theorem behind (behind : s.Behind) : t.Behind := by
  induction walked with
  | done => exact behind
  | @visit s t nbr beam answer rest ih =>
    obtain ⟨inside, -, visited⟩ := closestNotvisited_eq_of_some answer
    rw [visited] at ih
    exact ih (behind.visit inside).behind

/-- Only the entries of the beam become visited. -/
theorem visited_cases {slot : Slot I} (mem : slot ∈ t.slots)
    (visited : slot.visited = true) : slot ∈ s.slots ∨ slot.neighbor ∈ beam := by
  induction walked with
  | done => exact .inl mem
  | @visit s t nbr beam answer rest ih =>
    rcases ih mem with old | inBeam
    · obtain ⟨inside, rfl, same⟩ := closestNotvisited_eq_of_some answer
      rw [same] at old
      change slot ∈ s.slots.modify s.cursor (.mark true) at old
      obtain ⟨index, found⟩ := mem_iff_getElem?.mp old
      rw [getElem?_modify] at found
      obtain ⟨before, there, rfl⟩ := Option.map_eq_some_iff.mp found
      split_ifs with here
      · subst here
        rw [getElem?_eq_getElem inside, Option.some.injEq] at there
        subst there
        exact .inr mem_cons_self
      · exact .inl (mem_of_getElem? there)
    · exact .inr (mem_cons_of_mem _ inBeam)

section

variable [DecidableEq I]

omit walked

variable (walked : Beam s beam t)
include walked

theorem seen {id : I} (seen : s.Seen id) : t.Seen id := by
  induction walked with
  | done => exact seen
  | visit answer rest ih =>
    exact ih seen.closestNotvisited

theorem seen_of_mem (distinct : s.Distinct) :
    ∀ nbr ∈ beam, t.Seen nbr.id := by
  induction walked with
  | done => exact forall_mem_nil _
  | @visit s t nbr beam answer rest ih =>
    exact forall_mem_cons.mpr ⟨rest.seen (distinct.seen_of_answer answer), ih distinct.closestNotvisited⟩

/-- What has been seen does not come again, in the beam or later. -/
theorem not_seen_of_mem (settled : s.Settled) :
    ∀ nbr ∈ beam, ¬ s.Seen nbr.id := by
  induction walked with
  | done => exact forall_mem_nil _
  | @visit s t nbr beam answer rest ih =>
    refine forall_mem_cons.mpr ⟨settled.not_seen_of_answer answer, fun other mem seen => ?_⟩
    exact ih settled.closestNotvisited other mem
      seen.closestNotvisited

theorem nodup (settled : s.Settled) (distinct : s.Distinct) :
    (beam.map (·.id)).Nodup := by
  induction walked with
  | done => exact nodup_nil
  | @visit s t nbr beam answer rest ih =>
    refine nodup_cons.mpr ⟨fun again => ?_, ih settled.closestNotvisited distinct.closestNotvisited⟩
    obtain ⟨other, mem, same⟩ := mem_map.mp again
    refine rest.not_seen_of_mem settled.closestNotvisited other mem ?_
    rw [same]
    exact distinct.seen_of_answer answer

end

include walked

/-- Visits change no place in a list of slots of which the queue holds the first ones. -/
theorem exists_full {c : ℕ} {full : List (Slot I)}
    (sorted : full.Pairwise le) (held : s.slots = full.take c) :
    ∃ full' : List (Slot I), full'.Pairwise le ∧ t.slots = full'.take c ∧
      full'.map neighbor = full.map neighbor := by
  have same : (t.slots ++ full.drop c).map neighbor = full.map neighbor := by
    have front : t.slots.map neighbor = s.slots.map neighbor := walked.neighbors
    rw [map_append, front, held, ← map_append, take_append_drop]
  refine ⟨t.slots ++ full.drop c, ?_, ?_, same⟩
  · have keys := congrArg (map fun nbr : Neighbor I => nbr.distance.key) same
    rw [map_map, map_map] at keys
    have before : (full.map fun slot => slot.distance.key).Pairwise (· ≤ ·) :=
      pairwise_map.mpr sorted
    have after : ((t.slots ++ full.drop c).map fun slot => slot.distance.key).Pairwise (· ≤ ·) :=
      keys.symm ▸ before
    exact (pairwise_map.mp after).imp id
  · have length : t.slots.length = min c full.length := by
      rw [walked.length, held, length_take]
    rcases le_total c full.length with enough | short
    · rw [take_append_of_le_length (by omega), take_of_length_le (by omega)]
    · rw [drop_of_length_le short, append_nil, take_of_length_le (by omega)]

end Beam

end SlotQueue

end DiskAnn
