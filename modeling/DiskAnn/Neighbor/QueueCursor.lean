import DiskAnn.Machine.Run
import DiskAnn.Neighbor.Slots

/-! # The cursor of the neighbor priority queue

Runs of queue operations. The cursor is meant to stand at the first entry that has not been visited.
Every insertion, visit, reconfiguration and clearing keeps it there; draining, truncating, retaining
and removing may not, because each moves entries or flags under a cursor it resets or leaves. The
condition `Operation.Safe` says when they do, and along a run of safe operations
`closest_notvisited` answers the closest entry that has not been visited.
-/

namespace DiskAnn

open List SlotQueue

namespace NeighborPriorityQueue

variable {I : Type}

inductive Operation (I : Type) where
  | insert (nbr : Neighbor I)
  | closestNotvisited
  | remove (nbr : Neighbor I)
  | drainBest (count : ℕ)
  | reconfigure (searchParamL : ℕ)
  | retain (keep : Neighbor I → Bool)
  | truncate (len : ℕ)
  | clear

structure CursorAtFirstUnvisited (q : NeighborPriorityQueue I) : Prop where
  before : ∀ index < q.cursor, q.getVisited index = true
  at_cursor : q.cursor < q.size → q.getVisited q.cursor = false

/-- What `closest_notvisited` is for: the closest entry not visited, among the first
`search_param_l`. -/
def ClosestAnswered (q : NeighborPriorityQueue I) : Option (Neighbor I) → Prop
  | none => ∀ index < min q.searchParamL q.size, q.getVisited index = true
  | some nbr => ∃ index < min q.searchParamL q.size,
      q.get index = some nbr ∧ q.getVisited index = false ∧
        ∀ other < min q.searchParamL q.size, q.getVisited other = false →
          ∀ nbr', q.get other = some nbr' → nbr'.distance.lt nbr.distance = false

variable [DecidableEq I]

namespace Operation

def apply (q : NeighborPriorityQueue I) : Operation I → Option (NeighborPriorityQueue I)
  | .insert nbr => q.insert nbr
  | .closestNotvisited => q.closestNotvisited.map Prod.snd
  | .remove nbr => some (q.remove nbr).2
  | .drainBest count => some (q.drainBest count)
  | .reconfigure searchParamL => some (q.reconfigure searchParamL)
  | .retain keep => some (q.retain keep)
  | .truncate len => some (q.truncate len)
  | .clear => some q.clear

/-- The caller's duty: an inserted id is not in the queue. -/
def Allowed (q : NeighborPriorityQueue I) : Operation I → Prop
  | .insert nbr => nbr.id ∉ q.idVisiteds.map Prod.fst
  | _ => True

/-- When the operation succeeds and leaves the cursor at the first unvisited entry. -/
def Safe (q : NeighborPriorityQueue I) : Operation I → Prop
  | .insert nbr => nbr.distance.isNan = true ∨ q.autoResizable = true ∨ 0 < q.capacity
  | .remove nbr =>
      ¬ (q.getLowerBound nbr = q.cursor ∧ (q.getUnchecked q.cursor).map (·.id) = some nbr.id ∧
        q.getVisited (q.cursor + 1) = true)
  | .drainBest count => q.getVisited (min count q.size) = false
  | .retain keep => q.cursor = 0 ∨ ∃ index < q.size, (q.get index).any (!keep ·) = true
  | .truncate len => q.cursor = 0 ∨ len = 0 ∨ q.size ≤ len
  | .closestNotvisited | .reconfigure _ | .clear => True

instance (q : NeighborPriorityQueue I) : (op : Operation I) → Decidable (op.Allowed q)
  | .insert _ => inferInstanceAs (Decidable (¬ _))
  | .closestNotvisited | .remove _ | .drainBest _ | .reconfigure _ | .retain _ | .truncate _
  | .clear => inferInstanceAs (Decidable True)

instance (q : NeighborPriorityQueue I) : (op : Operation I) → Decidable (op.Safe q)
  | .insert _ => inferInstanceAs (Decidable (_ ∨ _ ∨ _))
  | .remove _ => inferInstanceAs (Decidable (¬ (_ ∧ _ ∧ _)))
  | .drainBest _ => inferInstanceAs (Decidable (_ = false))
  | .retain _ => inferInstanceAs (Decidable (_ ∨ _))
  | .truncate _ => inferInstanceAs (Decidable (_ ∨ _ ∨ _))
  | .closestNotvisited | .reconfigure _ | .clear => inferInstanceAs (Decidable True)

/-- The operation puts in an entry with this id that is not visited, or clears the flag of one. -/
def Resets (id : I) : Operation I → Prop
  | .insert nbr => nbr.id = id
  | .retain keep => ∃ distance, keep ⟨id, distance⟩ = true
  | _ => False

end Operation

def run (q : NeighborPriorityQueue I) (ops : List (Operation I)) :
    Option (NeighborPriorityQueue I) :=
  Machine.run Operation.apply q ops

/-- Every operation of the run is allowed and safe in the state it meets. -/
def SafeRun (q : NeighborPriorityQueue I) (ops : List (Operation I)) : Prop :=
  Machine.GuardedRun Operation.apply (fun q op => op.Allowed q ∧ op.Safe q) q ops

instance (q : NeighborPriorityQueue I) (ops : List (Operation I)) : Decidable (q.SafeRun ops) :=
  inferInstanceAs (Decidable (Machine.GuardedRun ..))

end NeighborPriorityQueue

open NeighborPriorityQueue (Operation CursorAtFirstUnvisited ClosestAnswered)

namespace SlotQueue

variable {I : Type}
variable {s : SlotQueue I} {nbr : Neighbor I}

/-! ## One operation -/

/-- The cursor stands at the first slot that is not visited. -/
def Settled (s : SlotQueue I) : Prop := s.cursor = s.slots.findIdx fun slot => !slot.visited

/-- Every slot before the cursor is visited. -/
def Behind (s : SlotQueue I) : Prop := s.cursor ≤ s.slots.findIdx fun slot => !slot.visited

theorem Settled.behind (settled : s.Settled) : s.Behind := le_of_eq settled

theorem getVisited_eq_false_iff (s : SlotQueue I) (index : ℕ) :
    s.toQueue.getVisited index = false ↔
      ∀ slot, s.slots[index]? = some slot → (!slot.visited) = true := by
  rw [toQueue_getVisited]
  cases s.slots[index]? <;> simp

theorem cursorAtFirstUnvisited_iff (s : SlotQueue I) :
    CursorAtFirstUnvisited s.toQueue ↔ s.Settled := by
  have visited : ∀ {index : ℕ} (inside : index < s.slots.length),
      s.toQueue.getVisited index = s.slots[index].visited := by
    intro index inside
    rw [toQueue_getVisited, getElem?_eq_getElem inside]
    rfl
  have bound := s.cursor_le
  constructor
  · rintro ⟨before, at_cursor⟩
    apply le_antisymm
    · by_contra earlier
      have inside := (not_le.mp earlier).trans_le bound
      have seen := before _ (not_le.mp earlier)
      rw [visited inside] at seen
      have unseen := findIdx_getElem (w := inside)
      rw [seen] at unseen
      cases unseen
    · by_contra later
      have inside := (not_le.mp later).trans_le findIdx_le_length
      have unseen := at_cursor inside
      change s.toQueue.getVisited s.cursor = false at unseen
      have seen := not_of_lt_findIdx (not_le.mp later)
      rw [visited inside] at unseen
      rw [unseen] at seen
      cases seen
  · intro settled
    refine ⟨fun index earlier => ?_, fun inside => ?_⟩
    · change index < s.cursor at earlier
      rw [visited (earlier.trans_le bound)]
      rw [settled] at earlier
      simpa using not_of_lt_findIdx earlier
    · change s.cursor < s.slots.length at inside
      have unseen := findIdx_getElem (w := settled ▸ inside)
      change s.toQueue.getVisited s.cursor = false
      rw [visited inside]
      have place : s.cursor = s.slots.findIdx fun slot => !slot.visited := settled
      simpa [place] using unseen

theorem Settled.insertOrdered (settled : s.Settled) (number : nbr.distance.isNan = false) :
    (s.insertOrdered nbr number).Settled := by
  have bound := s.cursor_le.trans s.fits
  change min s.cursor _ = findIdx _ (take s.capacity _)
  rw [s.orderedInsert_slots number, findIdx_take,
    findIdx_insertIdx (by simp [Slot.fresh]) (s.lowerBound_le _), ← settled]
  omega

theorem Settled.insert (settled : s.Settled) (nbr : Neighbor I) : (s.insert nbr).Settled := by
  unfold SlotQueue.insert
  split_ifs with number grow
  · have reserved : (s.reserve (max 1 (s.capacity >>> 1))).Settled := settled
    exact reserved.insertOrdered number
  · exact settled.insertOrdered number
  · exact settled

/-- A visit goes on to the first slot that is not visited, wherever it starts from. -/
theorem Behind.visit (behind : s.Behind) (inside : s.cursor < s.slots.length) :
    (s.visit inside).Settled := by
  refine (findIdx_eq_add_of_le ?_).symm
  refine lt_findIdx_of_not (inside.trans_eq s.length_markCursor.symm) fun index early => ?_
  simp only [markCursor, reflag, getElem_modify]
  split_ifs with here
  · simp [Slot.mark]
  · have earlier : index < s.slots.findIdx fun slot => !slot.visited := by
      unfold Behind at behind
      omega
    simpa using not_of_lt_findIdx earlier

theorem Settled.closestNotvisited (settled : s.Settled) : s.closestNotvisited.2.Settled := by
  unfold SlotQueue.closestNotvisited
  split_ifs with more
  · exact settled.behind.visit (more.trans_le (min_le_right ..))
  · exact settled

theorem Settled.reconfigure (settled : s.Settled) (searchParamL : ℕ) :
    (s.reconfigure searchParamL).Settled := by
  change min s.cursor searchParamL = findIdx _ (s.slots.take searchParamL)
  rw [findIdx_take, ← settled, min_comm]

theorem settled_clear (s : SlotQueue I) : s.clear.Settled := rfl

theorem settled_drainBest_iff (s : SlotQueue I) (count : ℕ) :
    (s.drainBest count).Settled ↔ s.toQueue.getVisited (min count s.slots.length) = false := by
  change 0 = findIdx _ (s.slots.drop count) ↔ _
  rw [eq_comm, findIdx_eq_zero_iff, getVisited_eq_false_iff, getElem?_drop, add_zero]
  rcases le_total count s.slots.length with le | le
  · rw [min_eq_left le]
  · rw [min_eq_right le, getElem?_eq_none le, getElem?_eq_none le_rfl]

theorem Settled.truncate_iff (settled : s.Settled) (len : ℕ) :
    (s.truncate len).Settled ↔ s.cursor = 0 ∨ len = 0 ∨ s.slots.length ≤ len := by
  unfold truncate
  split_ifs with shorter
  · change 0 = findIdx _ (s.slots.take len) ↔ _
    rw [findIdx_take, ← settled]
    omega
  · simp [settled, not_lt.mp shorter]

theorem settled_retain_iff (s : SlotQueue I) (keep : Neighbor I → Bool) :
    (s.retain keep).Settled ↔ s.cursor = 0 ∨ ∃ slot ∈ s.slots, keep slot.neighbor = false := by
  have reset : (s.retain keep).slots.findIdx (fun slot => !slot.visited) = 0 := by
    rw [findIdx_eq_zero_iff]
    intro slot first
    obtain ⟨old, -, rfl⟩ := mem_map.mp (mem_of_getElem? first)
    rfl
  change (if _ then 0 else s.cursor) = findIdx _ _ ↔ _
  rw [reset]
  have shorter : (s.slots.filter fun slot => keep slot.neighbor).length < s.slots.length ↔
      ∃ slot ∈ s.slots, keep slot.neighbor = false := by
    simp
  rw [← shorter]
  split_ifs with some <;> simp [some]

theorem Settled.remove_iff [DecidableEq I] (settled : s.Settled) (nbr : Neighbor I) :
    (s.remove nbr).Settled ↔
      ¬ (s.removeAt nbr = some s.cursor ∧ s.toQueue.getVisited (s.cursor + 1) = true) := by
  cases found : s.removeAt nbr with
  | none => simp [remove_of_none found, settled]
  | some index =>
    rw [remove_of_some found]
    change (if index < s.cursor then s.cursor - 1 else s.cursor) =
      findIdx _ (s.slots.eraseIdx index) ↔ _
    by_cases here : index = s.cursor
    · subst here
      have next := findIdx_eraseIdx_self (p := fun slot => !slot.visited) (l := s.slots)
      rw [← settled, ← getVisited_eq_false_iff] at next
      rw [if_neg (lt_irrefl _), eq_comm, next]
      simp
    · rw [findIdx_eraseIdx_of_ne (by rwa [← settled]), ← settled]
      simp [here]

def step [DecidableEq I] (s : SlotQueue I) : Operation I → SlotQueue I
  | .insert nbr => s.insert nbr
  | .closestNotvisited => s.closestNotvisited.2
  | .remove nbr => s.remove nbr
  | .drainBest count => s.drainBest count
  | .reconfigure searchParamL => s.reconfigure searchParamL
  | .retain keep => s.retain keep
  | .truncate len => s.truncate len
  | .clear => s.clear

theorem removeAt_eq_cursor_iff [DecidableEq I] (s : SlotQueue I) (nbr : Neighbor I) :
    s.removeAt nbr = some s.cursor ↔ s.toQueue.getLowerBound nbr = s.toQueue.cursor ∧
      (s.toQueue.getUnchecked s.toQueue.cursor).map (·.id) = some nbr.id := by
  have stored : (s.toQueue.getUnchecked s.cursor).map (·.id) = s.slots[s.cursor]?.map Slot.id := by
    rw [toQueue_getUnchecked, Option.map_map]
    rfl
  rw [toQueue_getLowerBound, show s.toQueue.cursor = s.cursor from rfl, stored, removeAt]
  split_ifs with same
  · rw [Option.some.injEq]
    exact ⟨fun here => ⟨here, here ▸ same⟩, And.left⟩
  · refine iff_of_false (by simp) fun ⟨here, other⟩ => same ?_
    rw [here, other]

/-- Only an insertion into a queue without capacity fails. -/
theorem safe_insert_of_apply {q : NeighborPriorityQueue I}
    (applied : s.toQueue.insert nbr = some q) : (Operation.insert nbr).Safe s.toQueue := by
  by_contra refused
  simp only [Operation.Safe, toQueue, not_or, not_lt, Nat.le_zero] at refused
  obtain ⟨number, fixed, full⟩ := refused
  have fits := s.fits
  have empty : s.slots.length = 0 := by omega
  simp [NeighborPriorityQueue.insert, toQueue, number, fixed, full, empty] at applied

theorem exists_dropped_iff (s : SlotQueue I) (keep : Neighbor I → Bool) :
    (∃ slot ∈ s.slots, keep slot.neighbor = false) ↔
      ∃ index < s.toQueue.size, (s.toQueue.get index).any (!keep ·) = true := by
  constructor
  · rintro ⟨slot, mem, dropped⟩
    obtain ⟨index, inside, rfl⟩ := getElem_of_mem mem
    refine ⟨index, inside, ?_⟩
    rw [toQueue_get, getElem?_eq_getElem inside]
    simpa using dropped
  · rintro ⟨index, inside, dropped⟩
    rw [toQueue_get, getElem?_eq_getElem inside] at dropped
    exact ⟨_, getElem_mem inside, by simpa using dropped⟩

variable [DecidableEq I]

/-- An operation acts on the slots, if the queue has room for what is inserted. -/
theorem toQueue_step (s : SlotQueue I) (op : Operation I)
    (room : ∀ nbr, op = .insert nbr → op.Safe s.toQueue) :
    op.apply s.toQueue = some (s.step op).toQueue := by
  cases op with
  | insert nbr => exact s.toQueue_insert (room nbr rfl)
  | closestNotvisited =>
    simp only [Operation.apply, toQueue_closestNotvisited]
    rfl
  | remove nbr => simp only [Operation.apply, toQueue_remove, step]
  | drainBest count => exact congrArg some (s.toQueue_drainBest count)
  | reconfigure searchParamL => exact congrArg some (s.toQueue_reconfigure searchParamL)
  | retain keep => exact congrArg some (s.toQueue_retain keep)
  | truncate len => exact congrArg some (s.toQueue_truncate len)
  | clear => rfl

theorem settled_step_iff (s : SlotQueue I) (op : Operation I)
    (room : ∀ nbr, op = .insert nbr → op.Safe s.toQueue) :
    (s.step op).Settled ↔ ∃ q, op.apply s.toQueue = some q ∧ CursorAtFirstUnvisited q := by
  rw [s.toQueue_step op room, ← cursorAtFirstUnvisited_iff]
  exact ⟨fun at_first => ⟨_, rfl, at_first⟩, fun ⟨q, same, at_first⟩ =>
    Option.some.inj same ▸ at_first⟩

/-- From a cursor at the first unvisited slot, safe operations are those that keep it there. -/
theorem Settled.safe_iff (settled : s.Settled) (op : Operation I) :
    op.Safe s.toQueue ↔ ∃ q, op.apply s.toQueue = some q ∧ CursorAtFirstUnvisited q := by
  cases op with
  | insert nbr =>
    constructor
    · intro safe
      exact (s.settled_step_iff (.insert nbr) fun _ _ => safe).mp (settled.insert nbr)
    · rintro ⟨q, applied, -⟩
      exact safe_insert_of_apply applied
  | closestNotvisited =>
    rw [← s.settled_step_iff .closestNotvisited nofun]
    exact iff_of_true trivial settled.closestNotvisited
  | remove nbr =>
    rw [← s.settled_step_iff (.remove nbr) nofun, step, settled.remove_iff, removeAt_eq_cursor_iff,
      and_assoc]
    rfl
  | drainBest count =>
    rw [← s.settled_step_iff (.drainBest count) nofun, step, settled_drainBest_iff]
    rfl
  | reconfigure searchParamL =>
    rw [← s.settled_step_iff (.reconfigure searchParamL) nofun]
    exact iff_of_true trivial (settled.reconfigure searchParamL)
  | retain keep =>
    rw [← s.settled_step_iff (.retain keep) nofun, step, settled_retain_iff, exists_dropped_iff]
    rfl
  | truncate len =>
    rw [← s.settled_step_iff (.truncate len) nofun, step, settled.truncate_iff]
    rfl
  | clear =>
    rw [← s.settled_step_iff .clear nofun]
    exact iff_of_true trivial s.settled_clear

theorem Settled.step (settled : s.Settled) {op : Operation I} (safe : op.Safe s.toQueue) :
    (s.step op).Settled :=
  (s.settled_step_iff op fun _ _ => safe).mpr ((settled.safe_iff op).mp safe)

/-! ## Ids and flags -/

def Distinct (s : SlotQueue I) : Prop := (s.slots.map Slot.id).Nodup

/-- Whatever has this id is visited. -/
def Seen (s : SlotQueue I) (id : I) : Prop := ∀ slot ∈ s.slots, slot.id = id → slot.visited = true

/-- The slot `new` is `old` with its flag changed, if at all, to visited or by a reset. -/
def Carries (op : Operation I) (new old : Slot I) : Prop :=
  new.id = old.id ∧ (old.visited = true → new.visited = true ∨ op.Resets old.id)

/-- Every other operation loses slots and changes flags. -/
theorem step_slots (s : SlotQueue I) {op : Operation I} (other : ∀ nbr, op ≠ .insert nbr) :
    ∃ kept, kept.Sublist s.slots ∧ Forall₂ (Carries op) (s.step op).slots kept := by
  have same : ∀ slots, Forall₂ (Carries op) slots slots := fun slots =>
    forall₂_same.mpr fun slot _ => ⟨rfl, .inl⟩
  have keeps : ∀ slots, (s.step op).slots = slots → slots.Sublist s.slots →
      ∃ kept, kept.Sublist s.slots ∧ Forall₂ (Carries op) (s.step op).slots kept :=
    fun slots equal sub => ⟨slots, sub, equal ▸ same slots⟩
  cases op with
  | insert nbr => exact absurd rfl (other nbr)
  | closestNotvisited =>
    refine ⟨s.slots, .refl _, ?_⟩
    change Forall₂ _ s.closestNotvisited.2.slots _
    unfold closestNotvisited
    split_ifs
    · exact forall₂_modify (fun _ => ⟨rfl, .inl⟩) (fun _ => ⟨rfl, fun _ => .inl rfl⟩) ..
    · exact same _
  | remove nbr =>
    refine keeps (s.remove nbr).slots rfl ?_
    cases found : s.removeAt nbr with
    | some index =>
      rw [remove_of_some found]
      exact eraseIdx_sublist ..
    | none => rw [remove_of_none found]
  | drainBest count => exact keeps _ rfl (drop_sublist ..)
  | reconfigure searchParamL => exact keeps _ rfl (take_sublist ..)
  | retain keep =>
    refine ⟨s.slots.filter fun slot => keep slot.neighbor, filter_sublist, ?_⟩
    refine forall₂_map_left_iff.mpr (forall₂_same.mpr fun slot mem => ?_)
    exact ⟨rfl, fun _ => .inr ⟨slot.distance, (mem_filter.mp mem).2⟩⟩
  | truncate len =>
    refine keeps (s.truncate len).slots rfl ?_
    unfold truncate
    split_ifs
    · exact take_sublist ..
    · exact .refl _
  | clear => exact keeps [] rfl (nil_sublist _)

theorem Distinct.step (distinct : s.Distinct) {op : Operation I} (allowed : op.Allowed s.toQueue) :
    (s.step op).Distinct := by
  by_cases inserts : ∃ nbr, op = .insert nbr
  · obtain ⟨nbr, rfl⟩ := inserts
    have new : nbr.id ∉ s.slots.map Slot.id := by
      simpa [Operation.Allowed, toQueue] using allowed
    have whole : ((Slot.fresh nbr :: s.slots).map Slot.id).Nodup :=
      nodup_cons.mpr ⟨new, distinct⟩
    obtain ⟨slots, perm, sub⟩ := s.insert_slots_subperm nbr
    exact (perm.map Slot.id).nodup_iff.mp (whole.sublist (sub.map Slot.id))
  · obtain ⟨kept, sub, carries⟩ := s.step_slots fun nbr same => inserts ⟨nbr, same⟩
    have ids : (s.step op).slots.map Slot.id = kept.map Slot.id := by
      rw [← forall₂_eq_eq_eq, forall₂_map_left_iff, forall₂_map_right_iff]
      exact carries.imp fun _ _ => And.left
    unfold Distinct
    rw [ids]
    exact distinct.sublist (sub.map Slot.id)

theorem Seen.step {id : I} (seen : s.Seen id) {op : Operation I} (keeps : ¬ op.Resets id) :
    (s.step op).Seen id := by
  intro slot mem same
  by_cases inserts : ∃ nbr, op = .insert nbr
  · obtain ⟨nbr, rfl⟩ := inserts
    rcases mem_cons.mp ((s.insert_slots_subperm nbr).subset mem) with rfl | old
    · exact absurd same keeps
    · exact seen slot old same
  · obtain ⟨kept, sub, carries⟩ := s.step_slots fun nbr same => inserts ⟨nbr, same⟩
    obtain ⟨index, inside, rfl⟩ := getElem_of_mem mem
    have inside' := inside.trans_eq carries.length_eq
    obtain ⟨ids, flags⟩ := carries.get inside inside'
    simp only [get_eq_getElem] at ids flags
    have visited := seen _ (sub.subset (getElem_mem inside')) (ids.symm.trans same)
    refine (flags visited).resolve_right fun resets => keeps ?_
    rwa [← ids, same] at resets

/-! ## The answers -/

omit [DecidableEq I] in
theorem key_le_of_le (s : SlotQueue I) {i j : ℕ} {a b : Slot I} (ha : s.slots[i]? = some a)
    (hb : s.slots[j]? = some b) (le : i ≤ j) : a.distance.key ≤ b.distance.key := by
  obtain ⟨insideA, rfl⟩ := List.getElem?_eq_some_iff.mp ha
  obtain ⟨insideB, rfl⟩ := List.getElem?_eq_some_iff.mp hb
  rcases le.eq_or_lt with rfl | lt
  · rfl
  · exact pairwise_iff_getElem.mp s.sorted i j insideA insideB lt

omit [DecidableEq I] in
theorem closestNotvisited_eq_of_some (answer : s.closestNotvisited.1 = some nbr) :
    ∃ inside : s.cursor < s.slots.length,
      s.slots[s.cursor].neighbor = nbr ∧ s.closestNotvisited.2 = s.visit inside := by
  unfold closestNotvisited at answer ⊢
  split_ifs at answer ⊢ with more
  · have inside := more.trans_le (min_le_right ..)
    rw [getElem?_eq_getElem inside] at answer
    exact ⟨inside, Option.some.inj answer, rfl⟩

omit [DecidableEq I] in
theorem Settled.closestAnswered (settled : s.Settled) :
    ClosestAnswered s.toQueue s.closestNotvisited.1 := by
  have at_first := s.cursorAtFirstUnvisited_iff.mpr settled
  unfold SlotQueue.closestNotvisited
  split_ifs with more
  · have inside : s.cursor < s.slots.length := more.trans_le (min_le_right ..)
    have first := getElem?_eq_getElem inside
    rw [first]
    refine ⟨s.cursor, more, ?_, at_first.at_cursor inside, ?_⟩
    · rw [toQueue_get, first]
      rfl
    · intro other bound unseen nbr found
      have later : s.cursor ≤ other := by
        by_contra earlier
        rw [at_first.before other (not_le.mp earlier)] at unseen
        cases unseen
      rw [toQueue_get] at found
      obtain ⟨slot, present, rfl⟩ := Option.map_eq_some_iff.mp found
      have order := F32.lt_iff (s.number slot (mem_of_getElem? present))
        (s.number _ (getElem_mem inside))
      rw [← Bool.not_eq_true]
      exact fun lt => absurd (order.mp lt) (not_lt.mpr (s.key_le_of_le first present later))
  · intro index bound
    exact at_first.before index (bound.trans_le (not_lt.mp more))

omit [DecidableEq I] in
/-- What is answered becomes seen. -/
theorem Distinct.seen_of_answer (distinct : s.Distinct)
    (answer : s.closestNotvisited.1 = some nbr) : s.closestNotvisited.2.Seen nbr.id := by
  obtain ⟨inside, rfl, visited⟩ := closestNotvisited_eq_of_some answer
  rw [visited]
  intro slot mem same
  change slot ∈ s.slots.modify s.cursor (.mark true) at mem
  obtain ⟨index, bound, rfl⟩ := getElem_of_mem mem
  rw [getElem_modify] at same ⊢
  split_ifs at same ⊢ with here
  · rfl
  · rw [length_modify] at bound
    have apart := pairwise_iff_getElem.mp (pairwise_map.mp distinct)
    rcases lt_or_gt_of_ne here with later | earlier
    · exact absurd same.symm (apart _ _ inside bound later)
    · exact absurd same (apart _ _ bound inside earlier)

omit [DecidableEq I] in
theorem Settled.not_seen_of_answer (settled : s.Settled)
    (answer : s.closestNotvisited.1 = some nbr) : ¬ s.Seen nbr.id := by
  obtain ⟨inside, rfl, -⟩ := closestNotvisited_eq_of_some answer
  intro seen
  have visited := seen _ (getElem_mem inside) rfl
  have unseen := (s.cursorAtFirstUnvisited_iff.mpr settled).at_cursor inside
  change s.toQueue.getVisited s.cursor = false at unseen
  rw [toQueue_getVisited, getElem?_eq_getElem inside] at unseen
  simp [visited] at unseen

/-! ## Runs -/

/-- A safe run succeeds and keeps the cursor, the distinctness of ids and what is seen. -/
theorem run_safe {ops : List (Operation I)} (settled : s.Settled) (distinct : s.Distinct)
    (safe : s.toQueue.SafeRun ops) :
    ∃ s' : SlotQueue I, s.toQueue.run ops = some s'.toQueue ∧ s'.Settled ∧ s'.Distinct ∧
      ∀ id, s.Seen id → (∀ op ∈ ops, ¬ op.Resets id) → s'.Seen id := by
  induction ops generalizing s with
  | nil => exact ⟨s, rfl, settled, distinct, fun _ seen _ => seen⟩
  | cons op ops ih =>
    obtain ⟨⟨allowed, safeOp⟩, rest⟩ := safe
    have applied := s.toQueue_step op fun _ _ => safeOp
    obtain ⟨s', ran, settled', distinct', seen'⟩ :=
      ih (settled.step safeOp) (distinct.step allowed) (rest _ applied)
    refine ⟨s', ?_, settled', distinct', fun id seen keeps => ?_⟩
    · exact (Machine.run_cons applied).trans ran
    · exact seen' id (seen.step (keeps op mem_cons_self)) fun later mem =>
        keeps later (mem_cons_of_mem op mem)

end SlotQueue

namespace NeighborPriorityQueue

variable {I : Type} [DecidableEq I]

omit [DecidableEq I] in
theorem exists_empty {start : NeighborPriorityQueue I} {searchParamL : ℕ}
    (created : start = new searchParamL ∨ start = autoResizableWithSearchParamL searchParamL) :
    ∃ s : SlotQueue I, start = s.toQueue ∧ s.slots = [] ∧ s.cursor = 0 := by
  rcases created with rfl | rfl
  · exact ⟨.empty searchParamL false, rfl, rfl, rfl⟩
  · exact ⟨.empty searchParamL true, rfl, rfl, rfl⟩

/-- Along a safe run from a new queue the cursor stands at the first entry that is not visited, and
exactly the safe operations keep it there. `closest_notvisited` answers the closest entry that is
not visited, and none that it answered before, unless that entry was reset in between. -/
theorem cursor_at_first_unvisited {start : NeighborPriorityQueue I} {searchParamL : ℕ}
    (created : start = new searchParamL ∨ start = autoResizableWithSearchParamL searchParamL)
    {ops : List (Operation I)} (safe : start.SafeRun ops) :
    ∃ q, start.run ops = some q ∧ CursorAtFirstUnvisited q ∧
      (∀ op : Operation I, op.Safe q ↔ ∃ q', op.apply q = some q' ∧ CursorAtFirstUnvisited q') ∧
      ∃ answer q', q.closestNotvisited = some (answer, q') ∧ ClosestAnswered q answer ∧
        ∀ before after p p' nbr, ops = before ++ .closestNotvisited :: after →
          start.run before = some p → p.closestNotvisited = some (some nbr, p') →
          (∀ op ∈ after, ¬ op.Resets nbr.id) → ∀ nbr', answer = some nbr' → nbr'.id ≠ nbr.id := by
  obtain ⟨s, rfl, slots, cursor⟩ := exists_empty created
  have settled : s.Settled := by rw [SlotQueue.Settled, slots, cursor]; rfl
  have distinct : s.Distinct := by rw [SlotQueue.Distinct, slots]; exact nodup_nil
  obtain ⟨t, ran, settledT, -, -⟩ := SlotQueue.run_safe settled distinct safe
  refine ⟨t.toQueue, ran, t.cursorAtFirstUnvisited_iff.mpr settledT, settledT.safe_iff,
    _, _, t.toQueue_closestNotvisited, settledT.closestAnswered, ?_⟩
  intro before after p p' nbr split ranBefore answered keeps nbr' answer same
  subst split
  obtain ⟨safeBefore, safeRest⟩ := Machine.GuardedRun.append safe
  obtain ⟨u, ranU, settledU, distinctU, -⟩ := SlotQueue.run_safe settled distinct safeBefore
  obtain rfl : p = u.toQueue := Option.some.inj (ranBefore.symm.trans ranU)
  obtain ⟨⟨-, safeOp⟩, safeAfter⟩ := safeRest _ ranBefore
  -- the answered entry is seen after the first call, hence at the end of the run
  rw [u.toQueue_closestNotvisited, Option.some.injEq, Prod.mk.injEq] at answered
  have seen := distinctU.seen_of_answer answered.1
  have applied := u.toQueue_step .closestNotvisited nofun
  obtain ⟨v, ranV, settledV, -, seenV⟩ := SlotQueue.run_safe (settledU.step safeOp)
    (distinctU.step trivial) (safeAfter _ applied)
  have final : t.toQueue = v.toQueue := by
    have whole : s.toQueue.run (before ++ .closestNotvisited :: after) = some v.toQueue :=
      (Machine.run_append ranBefore).trans ((Machine.run_cons applied).trans ranV)
    exact Option.some.inj (ran.symm.trans whole)
  have answerV : v.closestNotvisited.1 = some nbr' := by
    have equal := t.toQueue_closestNotvisited
    rw [final, v.toQueue_closestNotvisited, Option.some.injEq, Prod.mk.injEq] at equal
    exact equal.1.trans answer
  exact settledV.not_seen_of_answer answerV (same ▸ seenV nbr.id seen keeps)

/-- Entry 1 is visited and drained; the answer is entry 2. -/
theorem cursor_at_first_unvisited_drain_front :
    ∃ q, (new 3).run [.insert ⟨1, ⟨0x3f800000⟩⟩, .insert ⟨2, ⟨0x40000000⟩⟩, .closestNotvisited,
        .drainBest 1] = some q ∧ CursorAtFirstUnvisited q ∧
      ∃ q', q.closestNotvisited = some (some ⟨2, ⟨0x40000000⟩⟩, q') := by
  obtain ⟨q, ran, at_first, -⟩ := @cursor_at_first_unvisited ℕ _ (new 3) 3 (.inl rfl)
    [.insert ⟨1, ⟨0x3f800000⟩⟩, .insert ⟨2, ⟨0x40000000⟩⟩, .closestNotvisited, .drainBest 1]
    (by decide)
  cases ran
  exact ⟨_, rfl, at_first, _, rfl⟩

/-- Entries 1 and 2 are visited and entry 1 is drained: the cursor goes back to entry 2, which is
answered a second time. -/
theorem closestNotvisited_repeats_after_drain :
    ∃ p p' q q', (new 3).run [.insert ⟨1, ⟨0x3f800000⟩⟩, .insert ⟨2, ⟨0x40000000⟩⟩,
        .closestNotvisited] = some p ∧
      p.closestNotvisited = some (some ⟨2, ⟨0x40000000⟩⟩, p') ∧ p'.run [.drainBest 1] = some q ∧
      q.closestNotvisited = some (some ⟨2, ⟨0x40000000⟩⟩, q') ∧ ¬ CursorAtFirstUnvisited q := by
  refine ⟨_, _, _, _, rfl, rfl, rfl, rfl, fun at_first => ?_⟩
  exact absurd (at_first.at_cursor (by decide)) (by decide)

end NeighborPriorityQueue

end DiskAnn
