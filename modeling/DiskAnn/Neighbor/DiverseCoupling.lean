import DiskAnn.Machine.Run
import DiskAnn.Neighbor.DiverseQueue
import DiskAnn.Neighbor.Slots

/-! # The local queues of the diverse queue partition its global queue

For every attribute value the local queue is meant to hold what the global queue holds of that value.
An insertion that puts something out does so in one queue by position and in the other with `remove`,
which looks only at the first entry of the distance. The condition `Safe` says that this entry is the
right one; along a safe run the local queues partition the global one. The bounds on the sizes hold
along every run.
-/

namespace DiskAnn

open List Function DiverseNeighborQueue SlotQueue

namespace DiverseNeighborQueue

variable {I A : Type} [DecidableEq A]

/-! ## Partitions of a list of neighbors -/

section Partition

/-- The neighbors with an attribute value. -/
def carrying (global : List (Neighbor (VectorIdWithAttribute I A))) (value : A) :
    List (Neighbor I) :=
  (global.filter (·.id.attributeValue = value)).map withoutAttribute

def Partitioned (global : List (Neighbor (VectorIdWithAttribute I A)))
    (locals : A → List (Neighbor I)) : Prop :=
  ∀ value, (locals value).Perm (carrying global value)

variable {global global' : List (Neighbor (VectorIdWithAttribute I A))}
  {locals locals' : A → List (Neighbor I)} {value : A} {nbr : Neighbor I}

theorem carrying_cons_self :
    carrying (withAttribute value nbr :: global) value = nbr :: carrying global value := by
  simp [carrying, withAttribute, withoutAttribute]

theorem carrying_cons_of_ne {other : A} (ne : other ≠ value) :
    carrying (withAttribute value nbr :: global) other = carrying global other := by
  simp [carrying, withAttribute, ne.symm]

theorem carrying_perm (perm : global.Perm global') (value : A) :
    (carrying global value).Perm (carrying global' value) :=
  (perm.filter _).map _

theorem mem_carrying : nbr ∈ carrying global value ↔ withAttribute value nbr ∈ global := by
  constructor
  · intro mem
    obtain ⟨found, inside, rfl⟩ := mem_map.mp mem
    obtain ⟨inside, same⟩ := mem_filter.mp inside
    rw [decide_eq_true_iff] at same
    rwa [← same]
  · intro mem
    exact mem_map.mpr ⟨_, mem_filter.mpr ⟨mem, by simp [withAttribute]⟩, rfl⟩

theorem Partitioned.add (parts : Partitioned global locals)
    (added : global'.Perm (withAttribute value nbr :: global))
    (here : (locals' value).Perm (nbr :: locals value))
    (elsewhere : ∀ other ≠ value, locals' other = locals other) : Partitioned global' locals' := by
  intro other
  refine Perm.trans ?_ (carrying_perm added other).symm
  by_cases same : other = value
  · subst same
    rw [carrying_cons_self]
    exact here.trans ((parts other).cons nbr)
  · rw [carrying_cons_of_ne same, elsewhere other same]
    exact parts other

theorem Partitioned.drop (parts : Partitioned global locals)
    (dropped : global.Perm (withAttribute value nbr :: global'))
    (here : (locals value).Perm (nbr :: locals' value))
    (elsewhere : ∀ other ≠ value, locals' other = locals other) : Partitioned global' locals' := by
  intro other
  have before := (parts other).trans (carrying_perm dropped other)
  by_cases same : other = value
  · subst same
    rw [carrying_cons_self] at before
    exact (here.symm.trans before).cons_inv
  · rw [carrying_cons_of_ne same] at before
    rwa [elsewhere other same]

end Partition

/-! ## Stored queues -/

/-- The slots behind a diverse queue. -/
structure Slots (I A : Type) where
  global : SlotQueue (VectorIdWithAttribute I A)
  locals : A → SlotQueue I

structure Stores (q : DiverseNeighborQueue I A) (lValue : ℕ) (slots : Slots I A) : Prop where
  global : q.globalQueue = slots.global.toQueue
  locals : ∀ value, q.localQueue value = (slots.locals value).toQueue
  globalFixed : slots.global.Fixed lValue
  localsFixed : ∀ value, (slots.locals value).Fixed q.diverseResultsL

theorem localQueue_setLocalQueue (q : DiverseNeighborQueue I A) (value other : A)
    (queue : NeighborPriorityQueue I) :
    (q.setLocalQueue value queue).localQueue other =
      if other = value then queue else q.localQueue other := by
  unfold localQueue setLocalQueue
  by_cases same : other = value
  · subst same
    rw [AList.lookup_insert, if_pos rfl]
    rfl
  · rw [AList.lookup_insert_ne same, if_neg same]

section Stores

variable {q : DiverseNeighborQueue I A} {lValue : ℕ} {slots : Slots I A} (stores : q.Stores lValue slots)
include stores

theorem Stores.setLocalQueue (value : A) {queue : SlotQueue I}
    (fixed : queue.Fixed q.diverseResultsL) :
    (q.setLocalQueue value queue.toQueue).Stores lValue
      { slots with locals := update slots.locals value queue } where
  global := stores.global
  locals other := by
    rw [localQueue_setLocalQueue]
    split_ifs with same
    · subst same
      simp
    · simp [same, stores.locals]
  globalFixed := stores.globalFixed
  localsFixed other := by
    change ((update slots.locals value queue) other).Fixed q.diverseResultsL
    by_cases same : other = value
    · subst same
      simpa using fixed
    · simpa [same] using stores.localsFixed other

theorem Stores.setGlobalQueue {queue : SlotQueue (VectorIdWithAttribute I A)} (fixed : queue.Fixed lValue) :
    { q with globalQueue := queue.toQueue }.Stores lValue { slots with global := queue } where
  global := rfl
  locals := stores.locals
  globalFixed := fixed
  localsFixed := stores.localsFixed

/-- Writing back a local queue as it is only makes it present. -/
theorem Stores.touchLocalQueue (value : A) :
    (q.setLocalQueue value (q.localQueue value)).Stores lValue slots := by
  rw [stores.locals]
  simpa using stores.setLocalQueue value (stores.localsFixed value)

/-- The slots after both queues took a neighbor. -/
def Slots.insertBoth (slots : Slots I A) (value : A) (nbr : Neighbor I) : Slots I A where
  global := slots.global.insert (withAttribute value nbr)
  locals := update slots.locals value ((slots.locals value).insert nbr)

theorem Stores.insertBoth (value : A) (nbr : Neighbor I)
    (global : 0 < lValue) (locals : 0 < q.diverseResultsL) :
    ∃ q', q.insertBoth value nbr = some q' ∧ q'.Stores lValue (slots.insertBoth value nbr) ∧
      q'.attributeProvider = q.attributeProvider ∧ q'.diverseResultsL = q.diverseResultsL := by
  have insertedLocal : (q.localQueue value).insert nbr =
      some ((slots.locals value).insert nbr).toQueue := by
    rw [stores.locals]
    exact (slots.locals value).toQueue_insert
      (.inr (.inr (locals.trans_eq (stores.localsFixed value).capacity.symm)))
  have insertedGlobal : q.globalQueue.insert (withAttribute value nbr) =
      some (slots.global.insert (withAttribute value nbr)).toQueue := by
    rw [stores.global]
    exact slots.global.toQueue_insert
      (.inr (.inr (global.trans_eq stores.globalFixed.capacity.symm)))
  refine ⟨{ q.setLocalQueue value ((slots.locals value).insert nbr).toQueue with
    globalQueue := (slots.global.insert (withAttribute value nbr)).toQueue }, ?_, ?_, rfl, rfl⟩
  · unfold DiverseNeighborQueue.insertBoth
    rw [insertedLocal, insertedGlobal]
    rfl
  · exact (stores.setLocalQueue value ((stores.localsFixed value).insert nbr)).setGlobalQueue
      (stores.globalFixed.insert _)

end Stores

/-! ## The coupling -/

/-- `remove` finds this neighbor: no other entry of its distance comes before it. -/
def FirstOfItsDistance {J : Type} (q : NeighborPriorityQueue J) (nbr : Neighbor J) : Prop :=
  (q.getUnchecked (q.getLowerBound nbr)).map (·.id) = some nbr.id

/-- When an insertion that puts something out finds it in the other queue: the worst of a full local
queue in the global one, unless it is the last there, and the worst of a full global queue in its
local one. -/
def Safe (q : DiverseNeighborQueue I A) (nbr : Neighbor I) : Prop :=
  ∀ value ∈ q.attributeProvider nbr.id,
    ((q.localQueue value).isFull = true →
      ∀ worst ∈ (q.localQueue value).get (q.diverseResultsL - 1),
        nbr.distance.lt worst.distance = true →
        FirstOfItsDistance q.globalQueue (withAttribute value worst) ∨
          q.globalQueue.isFull = true ∧
            (q.globalQueue.get (q.globalQueue.searchParamL - 1)).map (·.id) = some ⟨worst.id, value⟩) ∧
    ((q.localQueue value).isFull = false → q.globalQueue.isFull = true →
      ∀ worst ∈ q.globalQueue.get (q.globalQueue.searchParamL - 1),
        nbr.distance.lt worst.distance = true →
        FirstOfItsDistance (q.localQueue worst.id.attributeValue) (withoutAttribute worst))

instance {J : Type} [DecidableEq J] (q : NeighborPriorityQueue J) (nbr : Neighbor J) :
    Decidable (FirstOfItsDistance q nbr) :=
  inferInstanceAs (Decidable (_ = _))

instance [DecidableEq I] (q : DiverseNeighborQueue I A) (nbr : Neighbor I) : Decidable (q.Safe nbr) :=
  inferInstanceAs (Decidable (∀ value ∈ q.attributeProvider nbr.id, _ ∧ _))

structure Coupled (provider : I → Option A) (global : List (Neighbor (VectorIdWithAttribute I A)))
    (locals : A → List (Neighbor I)) : Prop where
  parts : Partitioned global locals
  distinct : (global.map (·.id.id)).Nodup
  carried : ∀ nbr ∈ global, provider nbr.id.id = some nbr.id.attributeValue

section Coupled

variable {provider : I → Option A} {global global' : List (Neighbor (VectorIdWithAttribute I A))}
  {locals locals' : A → List (Neighbor I)} {value : A} {nbr : Neighbor I}
  (coupled : Coupled provider global locals)
include coupled

theorem Coupled.add (assigned : provider nbr.id = some value)
    (new : nbr.id ∉ global.map (·.id.id)) (added : global'.Perm (withAttribute value nbr :: global))
    (here : (locals' value).Perm (nbr :: locals value))
    (elsewhere : ∀ other ≠ value, locals' other = locals other) :
    Coupled provider global' locals' where
  parts := coupled.parts.add added here elsewhere
  distinct := (added.map _).nodup_iff.mpr (nodup_cons.mpr ⟨new, coupled.distinct⟩)
  carried nbr' member := by
    rcases mem_cons.mp (added.subset member) with rfl | old
    · exact assigned
    · exact coupled.carried nbr' old

theorem Coupled.drop (value : A) (nbr : Neighbor I)
    (dropped : global.Perm (withAttribute value nbr :: global'))
    (here : (locals value).Perm (nbr :: locals' value))
    (elsewhere : ∀ other ≠ value, locals' other = locals other) :
    Coupled provider global' locals' where
  parts := coupled.parts.drop dropped here elsewhere
  distinct := ((dropped.map _).nodup_iff.mp coupled.distinct).of_cons
  carried nbr' member := coupled.carried nbr' (dropped.symm.subset (mem_cons_of_mem _ member))

theorem Coupled.eq_of_global {a b : Neighbor (VectorIdWithAttribute I A)} (ha : a ∈ global) (hb : b ∈ global)
    (same : a.id.id = b.id.id) : a = b :=
  inj_on_of_nodup_map coupled.distinct ha hb same

theorem Coupled.mem_local_iff :
    nbr ∈ locals value ↔ withAttribute value nbr ∈ global := by
  rw [(coupled.parts value).mem_iff, mem_carrying]

theorem Coupled.eq_of_local (value : A) {a b : Neighbor I}
    (ha : a ∈ locals value) (hb : b ∈ locals value) (same : a.id = b.id) : a = b := by
  have equal := coupled.eq_of_global (coupled.mem_local_iff.mp ha) (coupled.mem_local_iff.mp hb) same
  cases a
  simp_all [withAttribute]

end Coupled

/-! ## One insertion -/

def Slots.Coupled (slots : Slots I A) (provider : I → Option A) : Prop :=
  DiverseNeighborQueue.Coupled provider slots.global.neighbors fun value =>
    (slots.locals value).neighbors

theorem not_nan_of_lt {x y : F32} (lt : x.lt y = true) : x.isNan = false := by
  simp_all [F32.lt]

theorem firstOfItsDistance_iff {J : Type} [DecidableEq J] (s : SlotQueue J) (nbr : Neighbor J) :
    FirstOfItsDistance s.toQueue nbr ↔ ∃ index, s.removeAt nbr = some index := by
  unfold FirstOfItsDistance removeAt
  rw [toQueue_getLowerBound, toQueue_getUnchecked, Option.map_map]
  change s.slots[s.lowerBound nbr.distance]?.map Slot.id = some nbr.id ↔ _
  split_ifs with same
  · simp [same]
  · simp [same]

section Insert

variable {q : DiverseNeighborQueue I A} {lValue : ℕ} {slots : Slots I A}
  {provider : I → Option A} {value : A} {nbr : Neighbor I}

theorem insertBoth_locals_of_ne {other : A} (ne : other ≠ value) :
    (slots.insertBoth value nbr).locals other = slots.locals other :=
  update_of_ne ne ..

theorem insertBoth_locals_self :
    (slots.insertBoth value nbr).locals value = (slots.locals value).insert nbr :=
  update_self ..

variable (coupled : slots.Coupled provider)
include coupled

variable (assigned : provider nbr.id = some value)
include assigned

variable (new : nbr.id ∉ slots.global.neighbors.map (·.id.id))
include new

/-- Both queues have room. -/
theorem Slots.Coupled.insertBoth

    (roomGlobal : slots.global.slots.length < slots.global.capacity)
    (roomLocal : (slots.locals value).slots.length < (slots.locals value).capacity) :
    (slots.insertBoth value nbr).Coupled provider := by
  cases number : nbr.distance.isNan with
  | true =>
    have global : slots.global.insert (withAttribute value nbr) = slots.global :=
      slots.global.insert_of_nan number
    have locals := (slots.locals value).insert_of_nan number
    unfold Slots.insertBoth
    rwa [global, locals, update_eq_self]
  | false =>
    refine coupled.add assigned new
      (slots.global.perm_insert_of_room _ number (.inr roomGlobal)) ?_ ?_
    · rw [insertBoth_locals_self]
      exact (slots.locals value).perm_insert_of_room nbr number (.inr roomLocal)
    · intro other ne
      rw [insertBoth_locals_of_ne ne]

variable [DecidableEq I]

/-- The global queue loses the worst neighbor of the full local queue, by `remove` or because it is
its last one. -/
theorem Slots.Coupled.insertLocalFull

    (fixedGlobal : slots.global.Fixed lValue) (fixedLocal : (slots.locals value).Fixed n)
    (full : (slots.locals value).slots.length = (slots.locals value).capacity)
    {worst : Slot I} (last : (slots.locals value).slots.getLast? = some worst)
    (closer : nbr.distance.lt worst.distance = true)
    (safe : FirstOfItsDistance slots.global.toQueue (withAttribute value worst.neighbor) ∨
      slots.global.slots.length = slots.global.capacity ∧
        slots.global.slots.getLast?.map Slot.id = some ⟨worst.id, value⟩) :
    Slots.Coupled (Slots.insertBoth
      { slots with global := slots.global.remove (withAttribute value worst.neighbor) } value nbr)
      provider := by
  have number := not_nan_of_lt closer
  have held : withAttribute value worst.neighbor ∈ slots.global.neighbors :=
    (Coupled.mem_local_iff coupled).mp
      (mem_map_of_mem (mem_of_getLast? last))
  have global : (withAttribute value nbr :: slots.global.neighbors).Perm
      (withAttribute value worst.neighbor :: ((slots.global.remove
        (withAttribute value worst.neighbor)).insert (withAttribute value nbr)).neighbors) := by
    cases found : slots.global.removeAt (withAttribute value worst.neighbor) with
    | some index =>
      obtain ⟨removed, mem, same, perm⟩ := perm_remove found
      obtain rfl := coupled.eq_of_global mem held
        (congrArg VectorIdWithAttribute.id same)
      have room : (slots.global.remove (withAttribute value worst.neighbor)).slots.length <
          (slots.global.remove (withAttribute value worst.neighbor)).capacity := by
        have length := perm.length_eq
        have fits := slots.global.fits
        rw [length_cons, length_neighbors, length_neighbors] at length
        rw [(fixedGlobal.remove _).capacity, ← fixedGlobal.capacity]
        omega
      have inserted := perm_insert_of_room _ (withAttribute value nbr) number (.inr room)
      exact ((perm.cons _).trans (.swap ..)).trans (inserted.symm.cons _)
    | none =>
      rw [remove_of_none found]
      rcases safe with first | ⟨fullGlobal, lastGlobal⟩
      · obtain ⟨index, other⟩ := (firstOfItsDistance_iff ..).mp first
        rw [found] at other
        cases other
      · obtain ⟨slot, final, same⟩ := Option.map_eq_some_iff.mp lastGlobal
        have equal : slot.neighbor = withAttribute value worst.neighbor :=
          coupled.eq_of_global
            (mem_map_of_mem (mem_of_getLast? final)) held
            (congrArg VectorIdWithAttribute.id same)
        have distance : slot.distance = worst.distance := congrArg Neighbor.distance equal
        rw [← equal]
        exact (slots.global.perm_insert_of_full (withAttribute value nbr) number
          fixedGlobal.autoResizable fullGlobal final (distance ▸ closer)).symm
  have both : DiverseNeighborQueue.Coupled provider
      (withAttribute value nbr :: slots.global.neighbors)
      (update (fun value => (slots.locals value).neighbors) value
        (nbr :: (slots.locals value).neighbors)) := by
    refine coupled.add assigned new (.refl _) ?_ ?_
    · simp
    · intro other ne
      simp [ne]
  refine both.drop value worst.neighbor global ?_ ?_
  · rw [update_self, insertBoth_locals_self]
    exact ((slots.locals value).perm_insert_of_full nbr number fixedLocal.autoResizable full last
      closer).symm
  · intro other ne
    rw [insertBoth_locals_of_ne ne]
    simp [ne]

/-- The worst neighbor of the full global queue leaves its local queue by `remove`. -/
theorem Slots.Coupled.insertGlobalFull

    (fixedGlobal : slots.global.Fixed lValue)
    (roomLocal : (slots.locals value).slots.length < (slots.locals value).capacity)
    (full : slots.global.slots.length = slots.global.capacity)
    {worst : Slot (VectorIdWithAttribute I A)} (last : slots.global.slots.getLast? = some worst)
    (closer : nbr.distance.lt worst.distance = true)
    (safe : FirstOfItsDistance (slots.locals worst.id.attributeValue).toQueue
      (withoutAttribute worst.neighbor)) :
    Slots.Coupled { slots.insertBoth value nbr with
      locals := update (slots.insertBoth value nbr).locals worst.id.attributeValue
        (((slots.insertBoth value nbr).locals worst.id.attributeValue).remove
          (withoutAttribute worst.neighbor)) } provider := by
  have number := not_nan_of_lt closer
  have held : worst.neighbor ∈ slots.global.neighbors :=
    mem_map_of_mem (mem_of_getLast? last)
  have global : (withAttribute value nbr :: slots.global.neighbors).Perm
      (worst.neighbor :: (slots.insertBoth value nbr).global.neighbors) :=
    (slots.global.perm_insert_of_full (withAttribute value nbr) number
      fixedGlobal.autoResizable full last closer).symm
  have both : DiverseNeighborQueue.Coupled provider
      (withAttribute value nbr :: slots.global.neighbors) fun value' =>
        ((slots.insertBoth value nbr).locals value').neighbors := by
    refine Coupled.add coupled assigned new (.refl _) ?_ ?_
    · rw [insertBoth_locals_self]
      exact (slots.locals value).perm_insert_of_room nbr number (.inr roomLocal)
    · intro other ne
      rw [insertBoth_locals_of_ne ne]
  have found : ∃ index, ((slots.insertBoth value nbr).locals worst.id.attributeValue).removeAt
      (withoutAttribute worst.neighbor) = some index := by
    obtain ⟨index, found⟩ := (firstOfItsDistance_iff ..).mp safe
    by_cases same : worst.id.attributeValue = value
    · rw [same, insertBoth_locals_self]
      exact removeAt_insert (slots.global.number worst (mem_of_getLast? last)) closer
        (.inr roomLocal) (same ▸ found)
    · rw [insertBoth_locals_of_ne same]
      exact ⟨index, found⟩
  obtain ⟨index, found⟩ := found
  obtain ⟨removed, mem, same, perm⟩ := perm_remove found
  have equal : removed = withoutAttribute worst.neighbor := by
    refine both.eq_of_local worst.id.attributeValue mem ?_ same
    exact both.mem_local_iff.mpr (mem_cons_of_mem _ held)
  refine both.drop worst.id.attributeValue (withoutAttribute worst.neighbor) global ?_ ?_
  · rw [equal] at perm
    simpa using perm
  · intro other ne
    simp [ne]

end Insert

/-- What an insertion does: it keeps the form of the queues, and the coupling if it is safe. -/
structure Inserted (q : DiverseNeighborQueue I A) (lValue : ℕ) (slots : Slots I A)
    (nbr : Neighbor I) (q' : DiverseNeighborQueue I A) (slots' : Slots I A) : Prop where
  stores : q'.Stores lValue slots'
  provider : q'.attributeProvider = q.attributeProvider
  bound : q'.diverseResultsL = q.diverseResultsL
  origin : ∀ held ∈ slots'.global.neighbors, held.id.id = nbr.id ∨ held ∈ slots.global.neighbors
  coupled : slots.Coupled q.attributeProvider → nbr.id ∉ slots.global.neighbors.map (·.id.id) →
    q.Safe nbr → slots'.Coupled q.attributeProvider

section Insert

variable {q : DiverseNeighborQueue I A} {lValue : ℕ} {slots : Slots I A} {value : A}
  {nbr : Neighbor I}

theorem Slots.insertBoth_origin (slots : Slots I A) :
    ∀ held ∈ (slots.insertBoth value nbr).global.neighbors,
      held.id.id = nbr.id ∨ held ∈ slots.global.neighbors := by
  intro held mem
  rcases mem_cons.mp (slots.global.neighbors_insert_subset _ mem) with rfl | old
  · exact .inl rfl
  · exact .inr old

variable (stores : q.Stores lValue slots)
include stores

theorem Stores.unchanged (value : A) :
    Inserted q lValue slots nbr (q.setLocalQueue value (q.localQueue value)) slots where
  stores := stores.touchLocalQueue value
  provider := rfl
  bound := rfl
  origin _ := .inr
  coupled coupled _ _ := coupled

theorem Stores.closestNotvisited :
    q.closestNotvisited = some (slots.global.closestNotvisited.1.map withoutAttribute,
      { q with globalQueue := slots.global.closestNotvisited.2.toQueue }) := by
  unfold DiverseNeighborQueue.closestNotvisited
  rw [stores.global, toQueue_closestNotvisited]
  rfl

variable [DecidableEq I]

theorem Stores.insertLocalFull (global : 0 < lValue)
    (locals : 0 < q.diverseResultsL) (assigned : q.attributeProvider nbr.id = some value)
    (full : (q.localQueue value).isFull = true) :
    ∃ q' slots', q.insertLocalFull value nbr = some q' ∧ Inserted q lValue slots nbr q' slots' := by
  have fixed := stores.localsFixed value
  have isFull := full
  rw [stores.locals, fixed.isFull_iff] at isFull
  obtain ⟨worst, last, got⟩ := fixed.exists_last locals isFull
  rw [← stores.locals] at got
  unfold DiverseNeighborQueue.insertLocalFull
  rw [got, Option.bind_eq_bind, Option.bind_some]
  split_ifs with closer
  · rw [stores.global, toQueue_remove]
    obtain ⟨q', inserted, stores', provider, bound⟩ := (stores.setGlobalQueue
      (stores.globalFixed.remove (withAttribute value worst.neighbor))).insertBoth value nbr global locals
    refine ⟨q', _, inserted, stores', provider, bound, ?_, ?_⟩
    · intro held mem
      refine (Slots.insertBoth_origin _ held mem).imp_right fun old => ?_
      exact slots.global.neighbors_remove_subset _ old
    · intro coupled new safe
      refine coupled.insertLocalFull assigned new stores.globalFixed fixed isFull last closer ?_
      have safe := (safe value assigned).1 full _ got closer
      rw [stores.global] at safe
      refine safe.imp_right fun ⟨fullGlobal, lastGlobal⟩ => ?_
      rw [stores.globalFixed.isFull_iff] at fullGlobal
      refine ⟨fullGlobal, ?_⟩
      rw [show slots.global.toQueue.searchParamL = lValue from stores.globalFixed.searchParamL,
        stores.globalFixed.get_of_full fullGlobal, Option.map_map] at lastGlobal
      exact lastGlobal
  · exact ⟨_, slots, rfl, stores.unchanged value⟩

/-- The end of the third case of `insert`; an absent queue is empty. -/
theorem Stores.removeLocal (value : A) (nbr : Neighbor I) :
    ∃ q', (match q.localQueueMap.lookup value with
        | some queue => pure (q.setLocalQueue value (queue.remove nbr).2)
        | none => pure q) = some q' ∧
      q'.Stores lValue
        { slots with locals := update slots.locals value ((slots.locals value).remove nbr) } ∧
      q'.attributeProvider = q.attributeProvider ∧ q'.diverseResultsL = q.diverseResultsL := by
  have same := stores.locals value
  cases present : q.localQueueMap.lookup value with
  | some queue =>
    refine ⟨_, rfl, ?_, rfl, rfl⟩
    rw [localQueue, present, Option.getD_some] at same
    rw [same, toQueue_remove]
    exact stores.setLocalQueue value ((stores.localsFixed value).remove nbr)
  | none =>
    refine ⟨q, rfl, ?_, rfl, rfl⟩
    rw [localQueue, present] at same
    have empty : (slots.locals value).slots = [] :=
      eq_nil_of_length_eq_zero (congrArg NeighborPriorityQueue.size same).symm
    have absent : (slots.locals value).removeAt nbr = none := by
      simp [removeAt, empty]
    rwa [remove_of_none absent, update_eq_self]

theorem Stores.insertGlobalFull (global : 0 < lValue)
    (locals : 0 < q.diverseResultsL) (assigned : q.attributeProvider nbr.id = some value)
    (room : (q.localQueue value).isFull = false) (full : q.globalQueue.isFull = true) :
    ∃ q' slots', q.insertGlobalFull value nbr = some q' ∧ Inserted q lValue slots nbr q' slots' := by
  have fixed := stores.globalFixed
  have isFull := full
  rw [stores.global, fixed.isFull_iff] at isFull
  obtain ⟨worst, last, got⟩ := fixed.exists_last global isFull
  rw [← fixed.searchParamL, show slots.global.searchParamL = q.globalQueue.searchParamL by
    rw [stores.global]; rfl, ← stores.global] at got
  unfold DiverseNeighborQueue.insertGlobalFull
  rw [got, Option.bind_eq_bind, Option.bind_some]
  split_ifs with closer
  · obtain ⟨q₁, inserted, stores₁, provider₁, bound₁⟩ := stores.insertBoth value nbr global locals
    obtain ⟨q₂, removed, stores₂, provider₂, bound₂⟩ :=
      stores₁.removeLocal worst.id.attributeValue (withoutAttribute worst.neighbor)
    refine ⟨q₂, _, ?_, stores₂, provider₂.trans provider₁, bound₂.trans bound₁,
      slots.insertBoth_origin, ?_⟩
    · rw [inserted]
      exact removed
    · intro coupled new safe
      have roomLocal := (stores.localsFixed value).lt_capacity (stores.locals value ▸ room)
      refine coupled.insertGlobalFull assigned new fixed roomLocal isFull last closer ?_
      rw [← stores.locals]
      exact (safe value assigned).2 room full _ got closer
  · exact ⟨_, slots, rfl, stores.unchanged value⟩

theorem Stores.insert (global : 0 < lValue)
    (locals : 0 < q.diverseResultsL) (nbr : Neighbor I) :
    ∃ q' slots', q.insert nbr = some q' ∧ Inserted q lValue slots nbr q' slots' := by
  unfold DiverseNeighborQueue.insert
  cases assigned : q.attributeProvider nbr.id with
  | none => exact ⟨q, slots, rfl, stores, rfl, rfl, fun _ => .inr, fun coupled _ _ => coupled⟩
  | some value =>
    simp only
    cases fullLocal : (q.localQueue value).isFull with
    | true => simpa using stores.insertLocalFull global locals assigned fullLocal
    | false =>
      cases fullGlobal : q.globalQueue.isFull with
      | true => simpa using stores.insertGlobalFull global locals assigned fullLocal fullGlobal
      | false =>
        obtain ⟨q', inserted, stores', provider, bound⟩ := stores.insertBoth value nbr global locals
        refine ⟨q', _, by simpa using inserted, stores', provider, bound, slots.insertBoth_origin, ?_⟩
        intro coupled new _
        exact coupled.insertBoth assigned new
          (stores.globalFixed.lt_capacity (stores.global ▸ fullGlobal))
          ((stores.localsFixed value).lt_capacity (stores.locals value ▸ fullLocal))

end Insert

/-! ## Runs -/

theorem stores_new (lValue kValue diverseResultsK : ℕ) (provider : I → Option A) :
    (new lValue kValue diverseResultsK provider).Stores lValue
      ⟨.empty lValue false, fun _ => .empty (diverseResultsK * lValue / kValue) false⟩ where
  global := rfl
  locals _ := rfl
  globalFixed := ⟨rfl, rfl, rfl⟩
  localsFixed _ := ⟨rfl, rfl, rfl⟩

variable [DecidableEq I]

inductive Operation (I : Type) where
  | insert (nbr : Neighbor I)
  | closestNotvisited

def Operation.apply (q : DiverseNeighborQueue I A) :
    Operation I → Option (DiverseNeighborQueue I A)
  | .insert nbr => q.insert nbr
  | .closestNotvisited => q.closestNotvisited.map Prod.snd

def run (q : DiverseNeighborQueue I A) (ops : List (Operation I)) :
    Option (DiverseNeighborQueue I A) :=
  Machine.run Operation.apply q ops

/-- The ids that a run inserts. -/
def insertedIds (ops : List (Operation I)) : List I :=
  ops.filterMap fun
    | .insert nbr => some nbr.id
    | .closestNotvisited => none

def Operation.Safe (q : DiverseNeighborQueue I A) : Operation I → Prop
  | .insert nbr => q.Safe nbr
  | .closestNotvisited => True

instance (q : DiverseNeighborQueue I A) : (op : Operation I) → Decidable (op.Safe q)
  | .insert nbr => inferInstanceAs (Decidable (q.Safe nbr))
  | .closestNotvisited => inferInstanceAs (Decidable True)

/-- Every insertion of the run is safe in the state it meets. -/
def SafeRun (q : DiverseNeighborQueue I A) (ops : List (Operation I)) : Prop :=
  Machine.GuardedRun Operation.apply (fun q op => op.Safe q) q ops

instance (q : DiverseNeighborQueue I A) (ops : List (Operation I)) : Decidable (q.SafeRun ops) :=
  inferInstanceAs (Decidable (Machine.GuardedRun ..))

theorem Stores.run {q : DiverseNeighborQueue I A} {lValue : ℕ} {slots : Slots I A}
    {ops : List (Operation I)} (stores : q.Stores lValue slots) (global : 0 < lValue)
    (locals : 0 < q.diverseResultsL) (distinct : (insertedIds ops).Nodup)
    (fresh : ∀ held ∈ slots.global.neighbors, held.id.id ∉ insertedIds ops) :
    ∃ q' slots', q.run ops = some q' ∧ q'.Stores lValue slots' ∧
      q'.diverseResultsL = q.diverseResultsL ∧
      (slots.Coupled q.attributeProvider → q.SafeRun ops → slots'.Coupled q.attributeProvider) := by
  induction ops generalizing q slots with
  | nil => exact ⟨q, slots, rfl, stores, rfl, fun coupled _ => coupled⟩
  | cons op ops ih =>
    cases op with
    | insert nbr =>
      obtain ⟨new, distinct⟩ := nodup_cons.mp distinct
      obtain ⟨q₁, slots₁, applied, inserted⟩ := stores.insert global locals nbr
      change Operation.apply q (.insert nbr) = some q₁ at applied
      obtain ⟨q₂, slots₂, ran, stores₂, bound, coupled₂⟩ := ih inserted.stores
        (inserted.bound ▸ locals) distinct fun held mem => by
          rcases inserted.origin held mem with same | old
          · rwa [same]
          · exact fun later => fresh held old (mem_cons_of_mem _ later)
      refine ⟨q₂, slots₂, ?_, stores₂, bound.trans inserted.bound, fun coupled safe => ?_⟩
      · exact (Machine.run_cons applied).trans ran
      · rw [← inserted.provider]
        refine coupled₂ ?_ (safe.2 _ applied)
        rw [inserted.provider]
        refine inserted.coupled coupled ?_ safe.1
        intro present
        obtain ⟨held, mem, same⟩ := mem_map.mp present
        exact fresh held mem (same ▸ mem_cons_self)
    | closestNotvisited =>
      have applied : Operation.apply q .closestNotvisited =
          some { q with globalQueue := slots.global.closestNotvisited.2.toQueue } := by
        rw [Operation.apply, stores.closestNotvisited]
        rfl
      have neighbors := slots.global.neighbors_closestNotvisited
      obtain ⟨q₂, slots₂, ran, stores₂, bound, coupled₂⟩ := ih
        (stores.setGlobalQueue stores.globalFixed.closestNotvisited) locals distinct
        fun held mem => fresh held (by simpa only [neighbors] using mem)
      refine ⟨q₂, slots₂, ?_, stores₂, bound, fun coupled safe => ?_⟩
      · exact (Machine.run_cons applied).trans ran
      · refine coupled₂ ?_ (safe.2 _ applied)
        simpa only [Slots.Coupled, neighbors] using coupled

/-- Every run of insertions of distinct ids succeeds and respects the bounds of the queues. If it is
safe, the local queue of an attribute value holds exactly the ids of the global queue that carry
it. -/
theorem local_queues_partition_global {lValue kValue diverseResultsK : ℕ} (provider : I → Option A)
    (positive : 1 ≤ diverseResultsK * lValue / kValue) {ops : List (Operation I)}
    (distinct : (insertedIds ops).Nodup) :
    ∃ q, (new lValue kValue diverseResultsK provider).run ops = some q ∧
      q.globalQueue.size ≤ lValue ∧
      (∀ value, (q.localQueue value).size ≤ diverseResultsK * lValue / kValue) ∧
      ((new lValue kValue diverseResultsK provider).SafeRun ops → ∀ value id,
        id ∈ (q.localQueue value).idVisiteds.map Prod.fst ↔
          id ∈ (q.globalQueue.idVisiteds.map Prod.fst).map (·.id) ∧ provider id = some value) := by
  have global : 0 < lValue := by
    rcases lValue.eq_zero_or_pos with rfl | positive'
    · simp at positive
    · exact positive'
  obtain ⟨q, slots, ran, stores, bound, coupled⟩ :=
    (stores_new lValue kValue diverseResultsK provider).run global positive distinct
      (forall_mem_nil _)
  refine ⟨q, ran, ?_, fun value => ?_, fun safe value id => ?_⟩
  · rw [stores.global, ← stores.globalFixed.capacity]
    exact slots.global.fits
  · rw [stores.locals]
    refine (slots.locals value).fits.trans_eq ?_
    rw [(stores.localsFixed value).capacity, bound]
    rfl
  · have empty : DiverseNeighborQueue.Coupled provider [] fun _ => [] :=
      ⟨fun _ => .nil, nodup_nil, forall_mem_nil _⟩
    have coupled := coupled empty safe
    rw [stores.locals, stores.global, SlotQueue.mem_ids, mem_map]
    simp only [SlotQueue.mem_ids]
    constructor
    · rintro ⟨slot, member, rfl⟩
      have held := coupled.mem_local_iff.mp (mem_map_of_mem member)
      obtain ⟨slot', member', same⟩ := mem_map.mp held
      refine ⟨⟨_, ⟨slot', member', rfl⟩, congrArg (·.id.id) same⟩, coupled.carried _ held⟩
    · rintro ⟨⟨_, ⟨slot, member, rfl⟩, rfl⟩, assigned⟩
      have held : slot.neighbor ∈ slots.global.neighbors := mem_map_of_mem member
      obtain rfl := Option.some.inj ((coupled.carried _ held).symm.trans assigned)
      have inside : withoutAttribute slot.neighbor ∈
          (slots.locals slot.neighbor.id.attributeValue).neighbors := coupled.mem_local_iff.mpr held
      obtain ⟨slot', member', same⟩ := mem_map.mp inside
      exact ⟨slot', member', congrArg (·.id) same⟩

/-- Two places, and one for each attribute value: entry 6 puts out entry 2, entry 7 puts out
entry 6. -/
theorem local_queues_partition_global_evicting :
    ∃ q, (new 2 2 1 fun id => some (id / 2)).run
        [.insert ⟨2, ⟨0x40a00000⟩⟩, .insert ⟨4, ⟨0x40800000⟩⟩, .insert ⟨6, ⟨0x40400000⟩⟩,
          .closestNotvisited, .insert ⟨7, ⟨0x3f800000⟩⟩] = some q ∧
      ∀ value id, id ∈ (q.localQueue value).idVisiteds.map Prod.fst ↔
        id ∈ (q.globalQueue.idVisiteds.map Prod.fst).map (·.id) ∧ some (id / 2) = some value := by
  obtain ⟨q, ran, -, -, parts⟩ := @local_queues_partition_global ℕ ℕ _ _ 2 2 1
    (fun id => some (id / 2)) (by decide)
    [.insert ⟨2, ⟨0x40a00000⟩⟩, .insert ⟨4, ⟨0x40800000⟩⟩, .insert ⟨6, ⟨0x40400000⟩⟩,
      .closestNotvisited, .insert ⟨7, ⟨0x3f800000⟩⟩] (by decide)
  exact ⟨q, ran, parts (by decide)⟩

/-- Entries 1 and 2 are equally far and have different attribute values, so that entry 2 stands
before entry 1. Entry 3 puts entry 1 out of its local queue only. -/
theorem local_queue_loses_tied_entry :
    ∃ q, (new 4 4 1 fun id => some (id % 2)).run
        [.insert ⟨1, ⟨0x40a00000⟩⟩, .insert ⟨2, ⟨0x40a00000⟩⟩, .insert ⟨3, ⟨0x40400000⟩⟩] = some q ∧
      1 ∈ (q.globalQueue.idVisiteds.map Prod.fst).map (·.id) ∧
      1 ∉ (q.localQueue (1 % 2)).idVisiteds.map Prod.fst := by
  refine ⟨_, rfl, ?_, ?_⟩
  · decide
  · decide

end DiverseNeighborQueue

end DiskAnn
