import DiskAnn.Streaming.Validate

/-! # Tags and slots of a managed stream

The bookkeeping of `Managed` with deferred reclaim: a deletion only marks a slot, and both maps keep
their entries until the next consolidation. The streams below succeed, so a stage fails by its
bookkeeping alone. Tags and slots are natural numbers and the maps are functions; the order in which
a hash set is drained is any order of its elements.
-/

namespace DiskAnn.Streaming

open List Function Validate Fallible

variable {s : Session} {capacity : ℕ}

/-- The hash set gives each element once, in an order of its own. -/
structure DrainOrder where
  drain : Finset ℕ → List ℕ
  nodup : ∀ slots, (drain slots).Nodup
  mem_iff : ∀ slots slot, slot ∈ drain slots ↔ slot ∈ slots

theorem DrainOrder.toFinset_drain (order : DrainOrder) (slots : Finset ℕ) :
    (order.drain slots).toFinset = slots := by
  ext slot
  rw [mem_toFinset, order.mem_iff]

structure TagSlotManager where
  emptySlots : List ℕ
  deletedSlots : Finset ℕ
  tagToSlot : ℕ → Option ℕ
  slotToTag : ℕ → Option ℕ
  capacity : ℕ

namespace TagSlotManager

/-- One slot is left for the frozen point; a capacity of zero underflows. -/
def new (maxCapacity : ℕ) : Option TagSlotManager :=
  if maxCapacity = 0 then none
  else some ⟨range ((maxCapacity - 1) % 2 ^ 32), ∅, fun _ => none, fun _ => none, maxCapacity⟩

variable (m : TagSlotManager)

def getNEmptySlots (n : ℕ) : Except String (List ℕ × TagSlotManager) :=
  if m.emptySlots.length < n then
    throw s!"Insufficient empty slots: requested {n}, available {m.emptySlots.length}"
  else pure (m.emptySlots.take n, { m with emptySlots := m.emptySlots.drop n })

def findSlotsByTags (tags : SimpleRange) : Except String (List ℕ) :=
  tags.toList.mapM fun tag =>
    match m.tagToSlot tag with
    | some slot => pure slot
    | none => throw s!"Tag {tag} not found in slot mapping"

/-- One round of the loop of `assign_slots_to_tags`. -/
def assign (entry : ℕ × ℕ) : TagSlotManager :=
  { m with
    tagToSlot := update m.tagToSlot entry.1 (some entry.2)
    slotToTag := update m.slotToTag entry.2 (some entry.1) }

def assignSlotsToTags (tags : SimpleRange) (slots : List ℕ) :
    Except String TagSlotManager :=
  if tags.toList.length ≠ slots.length then
    throw s!"Tag range length ({tags.toList.length}) does not match slots length ({slots.length})"
  else pure ((tags.toList.zip slots).foldl assign m)

/-- One round of the loop of `mark_tags_deleted`. -/
def markTagDeleted (tag : ℕ) : Except String TagSlotManager :=
  match m.tagToSlot tag with
  | some slot => pure { m with deletedSlots := insert slot m.deletedSlots }
  | none => throw s!"Tag {tag} not found in slot mapping for delete"

def markTagsDeleted (tags : SimpleRange) : Except String TagSlotManager :=
  tags.toList.foldlM markTagDeleted m

/-- One round of the loop of `consolidate`. -/
def reclaim (slot : ℕ) : TagSlotManager :=
  match m.slotToTag slot with
  | some tag => { m with
      slotToTag := update m.slotToTag slot none
      tagToSlot := update m.tagToSlot tag none
      emptySlots := m.emptySlots ++ [slot] }
  | none => { m with emptySlots := m.emptySlots ++ [slot] }

def consolidate (order : DrainOrder) : TagSlotManager :=
  (order.drain m.deletedSlots).foldl reclaim { m with deletedSlots := ∅ }

end TagSlotManager

namespace Managed

variable (bookKeeping : TagSlotManager)

/-- The groundtruth in terms of slots. -/
def search (groundtruth : List (List ℕ)) :
    Except String (List (List ℕ)) :=
  groundtruth.mapM fun row => row.mapM fun tag =>
    match bookKeeping.tagToSlot tag with
    | some slot => pure slot
    | none => throw s!"Tag {tag} not found in tag-to-slot mapping"

/-- The slots are the ones that the stream below is given. -/
def insert (tags : SimpleRange) :
    Except String (List ℕ × TagSlotManager) := do
  let (slots, bookKeeping) ← bookKeeping.getNEmptySlots tags.toList.length
  let bookKeeping ← bookKeeping.assignSlotsToTags tags slots
  pure (slots, bookKeeping)

def replace (tags : SimpleRange) : Except String (List ℕ) :=
  bookKeeping.findSlotsByTags tags

def delete (tags : SimpleRange) :
    Except String (List ℕ × TagSlotManager) := do
  let slots ← bookKeeping.findSlotsByTags tags
  let bookKeeping ← bookKeeping.markTagsDeleted tags
  pure (slots, bookKeeping)

def maintain (order : DrainOrder) : TagSlotManager :=
  bookKeeping.consolidate order

end Managed

def Stage.inserted : Stage → List ℕ
  | .insert ids => ids.toList
  | _ => []

/-- What happens while a runbook is executed. -/
inductive Step where
  | maintain (order : DrainOrder)
  | stage (stage : Stage)

/-- The stages of the runbook, without the maintenance between them. -/
def stages (steps : List Step) : List Stage :=
  steps.filterMap fun
    | .maintain _ => none
    | .stage stage => some stage

/-- The bookkeeping, with the slot that each active tag was given by its latest insertion. -/
structure Session where
  bookKeeping : TagSlotManager
  latest : ℕ → Option ℕ

namespace Session

def start (capacity : ℕ) : Option Session :=
  (TagSlotManager.new capacity).map fun bookKeeping => ⟨bookKeeping, fun _ => none⟩

def recordInsert (latest : ℕ → Option ℕ) (entry : ℕ × ℕ) : ℕ → Option ℕ :=
  update latest entry.1 (some entry.2)

def recordDelete (latest : ℕ → Option ℕ) (tag : ℕ) : ℕ → Option ℕ := update latest tag none

def step (s : Session) : Step → Except String Session
  | .maintain order => pure { s with bookKeeping := Managed.maintain s.bookKeeping order }
  | .stage (.search groundtruth) => do
      let _ ← Managed.search s.bookKeeping groundtruth
      pure s
  | .stage (.insert tags) => do
      let (slots, bookKeeping) ← Managed.insert s.bookKeeping tags
      pure ⟨bookKeeping, (tags.toList.zip slots).foldl recordInsert s.latest⟩
  | .stage (.replace _ tags) => do
      let _ ← Managed.replace s.bookKeeping tags
      pure s
  | .stage (.delete tags) => do
      let (_, bookKeeping) ← Managed.delete s.bookKeeping tags
      pure ⟨bookKeeping, tags.toList.foldl recordDelete s.latest⟩

def run (s : Session) (steps : List Step) : Except String Session := steps.foldlM step s

end Session

/-- What the bookkeeping promises after a stage. -/
structure Consistent (s : Session) : Prop where
  tagToSlot : ∀ tag slot, s.latest tag = some slot → s.bookKeeping.tagToSlot tag = some slot
  slotToTag : ∀ tag slot, s.latest tag = some slot → s.bookKeeping.slotToTag slot = some tag
  distinct : ∀ tag tag' slot, s.latest tag = some slot → s.latest tag' = some slot → tag = tag'
  /-- Each slot is once in the queue, or of an active tag, or deleted. -/
  partition : ∀ slot, slot < s.bookKeeping.capacity - 1 →
    (s.bookKeeping.emptySlots.count slot = 1 ∧ (∀ tag, s.latest tag ≠ some slot) ∧
      slot ∉ s.bookKeeping.deletedSlots) ∨
    (slot ∉ s.bookKeeping.emptySlots ∧ (∃ tag, s.latest tag = some slot) ∧
      slot ∉ s.bookKeeping.deletedSlots) ∨
    (slot ∉ s.bookKeeping.emptySlots ∧ (∀ tag, s.latest tag ≠ some slot) ∧
      slot ∈ s.bookKeeping.deletedSlots)
  replace : ∀ tags : SimpleRange, (∀ tag ∈ tags.toList, s.latest tag ≠ none) →
    ∃ slots, Managed.replace s.bookKeeping tags = pure slots
  delete : ∀ tags : SimpleRange, (∀ tag ∈ tags.toList, s.latest tag ≠ none) →
    ∃ result, Managed.delete s.bookKeeping tags = pure result
  translation : ∀ groundtruth : List (List ℕ), (∀ row ∈ groundtruth, ∀ tag ∈ row, s.latest tag ≠ none) →
    ∃ translated, Managed.search s.bookKeeping groundtruth = pure translated

/-- The tag of a deleted slot has no other slot, unless that one is deleted as well. -/
def Reclaimable (m : TagSlotManager) : Prop :=
  ∀ slot ∈ m.deletedSlots, ∀ tag, m.slotToTag slot = some tag →
    ∀ other, m.tagToSlot tag = some other → other ∈ m.deletedSlots

/-! ## The books through a stage -/

/-- The maps against the latest insertions, while some slots are free. A tag may be left in the maps
by a deleted slot only. -/
structure Books (free : List ℕ) (m : TagSlotManager) (latest : ℕ → Option ℕ) : Prop where
  tagToSlot : ∀ tag slot, latest tag = some slot → m.tagToSlot tag = some slot
  slotToTag : ∀ tag slot, latest tag = some slot → m.slotToTag slot = some tag
  active : ∀ tag slot, latest tag = some slot → slot ∉ m.deletedSlots ∧ slot ∉ free
  mapped : ∀ tag slot, m.tagToSlot tag = some slot →
    m.slotToTag slot = some tag ∧ (latest tag = some slot ∨ slot ∈ m.deletedSlots)
  tagged : ∀ slot tag, m.slotToTag slot = some tag → latest tag = some slot ∨ slot ∈ m.deletedSlots
  nodup : free.Nodup
  idle : ∀ slot ∈ free, slot ∉ m.deletedSlots
  covered : ∀ slot, slot < m.capacity - 1 →
    slot ∈ free ∨ slot ∈ m.deletedSlots ∨ ∃ tag, latest tag = some slot

theorem update_some_eq_some {f : ℕ → Option ℕ} {a b x y : ℕ} :
    update f a (some b) x = some y ↔ x = a ∧ y = b ∨ x ≠ a ∧ f x = some y := by
  rw [update_apply]
  split_ifs with same
  · simp [same, eq_comm]
  · simp [same]

theorem update_none_eq_some {f : ℕ → Option ℕ} {a x y : ℕ} :
    update f a none x = some y ↔ x ≠ a ∧ f x = some y := by
  rw [update_apply]
  split_ifs with same
  · simp [same]
  · simp [same]

namespace Books

variable {free : List ℕ} {m : TagSlotManager} {latest : ℕ → Option ℕ}

variable (books : Books free m latest)
include books

theorem injective {tag tag' slot : ℕ} (first : latest tag = some slot)
    (second : latest tag' = some slot) : tag = tag' := by
  have same := books.slotToTag tag slot first
  rw [books.slotToTag tag' slot second] at same
  exact (Option.some.inj same).symm

open TagSlotManager

open Session

omit books in
/-- A new pair of a tag and a free slot. -/
theorem assign {tag slot : ℕ} (books : Books (slot :: free) m latest) (fresh : latest tag = none) :
    Books free (m.assign (tag, slot)) (recordInsert latest (tag, slot)) := by
  have unused : ∀ tag', latest tag' ≠ some slot := fun tag' same =>
    (books.active tag' slot same).2 mem_cons_self
  have alive : slot ∉ m.deletedSlots := books.idle slot mem_cons_self
  obtain ⟨notFree, nodup⟩ := nodup_cons.mp books.nodup
  -- a tag left in the maps has another slot, since the new one is neither active nor deleted
  refine ⟨fun tag' slot' => ?_, fun tag' slot' => ?_, fun tag' slot' => ?_, fun tag' slot' => ?_,
    fun slot' tag' => ?_, nodup, fun slot' mem => ?_, fun slot' bound => ?_⟩ <;>
    simp only [TagSlotManager.assign, recordInsert, update_some_eq_some]
  · exact Or.imp_right (And.imp_right (books.tagToSlot tag' slot'))
  · rintro (⟨rfl, rfl⟩ | ⟨-, old⟩)
    · exact .inl ⟨rfl, rfl⟩
    · exact .inr ⟨fun same => unused tag' (same ▸ old), books.slotToTag tag' slot' old⟩
  · rintro (⟨-, rfl⟩ | ⟨-, old⟩)
    · exact ⟨alive, notFree⟩
    · exact (books.active tag' slot' old).imp_right (mt (mem_cons_of_mem _))
  · rintro (⟨rfl, rfl⟩ | ⟨other, old⟩)
    · exact ⟨.inl ⟨rfl, rfl⟩, .inl (.inl ⟨rfl, rfl⟩)⟩
    · obtain ⟨back, held⟩ := books.mapped tag' slot' old
      have apart : slot' ≠ slot := by
        rintro rfl
        exact held.elim (unused tag') alive
      exact ⟨.inr ⟨apart, back⟩, held.imp_left fun held => .inr ⟨other, held⟩⟩
  · rintro (⟨rfl, rfl⟩ | ⟨-, old⟩)
    · exact .inl (.inl ⟨rfl, rfl⟩)
    · refine (books.tagged slot' tag' old).imp_left fun held => .inr ⟨?_, held⟩
      rintro rfl
      cases fresh.symm.trans held
  · exact books.idle slot' (mem_cons_of_mem _ mem)
  · rcases books.covered slot' bound with mem | deleted | ⟨tag', held⟩
    · rcases mem_cons.mp mem with rfl | mem
      · exact .inr (.inr ⟨tag, .inl ⟨rfl, rfl⟩⟩)
      · exact .inl mem
    · exact .inr (.inl deleted)
    · refine .inr (.inr ⟨tag', .inr ⟨?_, held⟩⟩)
      rintro rfl
      cases fresh.symm.trans held

/-- The slot of an active tag is marked. -/
theorem mark {tag slot : ℕ} (active : latest tag = some slot) :
    Books free { m with deletedSlots := insert slot m.deletedSlots }
      (recordDelete latest tag) := by
  refine ⟨fun tag' slot' => ?_, fun tag' slot' => ?_, fun tag' slot' => ?_, fun tag' slot' => ?_,
    fun slot' tag' => ?_, books.nodup, fun slot' mem => ?_, fun slot' bound => ?_⟩ <;>
    simp only [recordDelete, update_none_eq_some, Finset.mem_insert, not_or]
  · exact fun ⟨_, old⟩ => books.tagToSlot tag' slot' old
  · exact fun ⟨_, old⟩ => books.slotToTag tag' slot' old
  · rintro ⟨other, old⟩
    obtain ⟨alive, notFree⟩ := books.active tag' slot' old
    refine ⟨⟨?_, alive⟩, notFree⟩
    rintro rfl
    exact other (books.injective old active)
  · intro old
    obtain ⟨back, held⟩ := books.mapped tag' slot' old
    refine ⟨back, ?_⟩
    by_cases same : tag' = tag
    · rw [same, books.tagToSlot tag slot active] at old
      exact .inr (.inl (Option.some.inj old).symm)
    · exact held.imp (fun held => ⟨same, held⟩) .inr
  · intro old
    by_cases same : slot' = slot
    · exact .inr (.inl same)
    · refine (books.tagged slot' tag' old).imp (fun held => ⟨?_, held⟩) .inr
      rintro rfl
      exact same (Option.some.inj (held.symm.trans active))
  · refine ⟨?_, books.idle slot' mem⟩
    rintro rfl
    exact (books.active tag slot' active).2 mem
  · rcases books.covered slot' bound with mem | deleted | ⟨tag', held⟩
    · exact .inl mem
    · exact .inr (.inl (.inr deleted))
    · by_cases same : tag' = tag
      · rw [same, active] at held
        exact .inr (.inl (.inl (Option.some.inj held).symm))
      · exact .inr (.inr ⟨tag', same, held⟩)

omit books in
/-- The whole range of an insertion. -/
theorem assignAll {entries : List (ℕ × ℕ)} (books : Books (entries.map Prod.snd ++ free) m latest)
    (fresh : ∀ entry ∈ entries, latest entry.1 = none) (nodup : (entries.map Prod.fst).Nodup) :
    Books free (entries.foldl TagSlotManager.assign m) (entries.foldl recordInsert latest) := by
  induction entries generalizing m latest with
  | nil => exact books
  | cons entry entries ih =>
    obtain ⟨fresh, later⟩ := forall_mem_cons.mp fresh
    obtain ⟨apart, nodup⟩ := nodup_cons.mp nodup
    refine ih (books.assign fresh) (fun other mem => ?_) nodup
    have ne : other.1 ≠ entry.1 := fun same =>
      apart (same ▸ mem_map_of_mem mem)
    rw [recordInsert, update_of_ne ne]
    exact later other mem

/-- The whole range of a deletion. -/
theorem markAll {tags : List ℕ}
    (active : ∀ tag ∈ tags, latest tag ≠ none) (nodup : tags.Nodup) :
    ∃ deletedSlots, tags.foldlM markTagDeleted m = pure { m with deletedSlots } ∧
      deletedSlots.card = m.deletedSlots.card + tags.length ∧
      Books free { m with deletedSlots } (tags.foldl recordDelete latest) := by
  induction tags generalizing m latest with
  | nil => exact ⟨_, rfl, rfl, books⟩
  | cons tag tags ih =>
    obtain ⟨held, later⟩ := forall_mem_cons.mp active
    obtain ⟨apart, nodup⟩ := nodup_cons.mp nodup
    obtain ⟨slot, held⟩ := Option.ne_none_iff_exists'.mp held
    have marked : m.markTagDeleted tag =
        pure { m with deletedSlots := insert slot m.deletedSlots } := by
      simp only [markTagDeleted, books.tagToSlot tag slot held]
    rw [foldlM_cons, marked]
    obtain ⟨deletedSlots, rest, card, books'⟩ := ih (books.mark held) (fun other mem => by
      rw [recordDelete, update_of_ne (ne_of_mem_of_not_mem mem apart)]
      exact later other mem) nodup
    rw [Finset.card_insert_of_notMem (books.active tag slot held).1, add_right_comm] at card
    exact ⟨deletedSlots, rest, card, books'⟩

omit books

theorem reclaim_tagToSlot {slot tag other : ℕ} : (m.reclaim slot).tagToSlot tag = some other ↔
    m.slotToTag slot ≠ some tag ∧ m.tagToSlot tag = some other := by
  cases held : m.slotToTag slot with
  | none => simp [reclaim, held]
  | some tag' =>
    simp only [reclaim, held, update_none_eq_some, ne_eq, Option.some.injEq]
    rw [eq_comm]

theorem reclaim_slotToTag {slot other tag : ℕ} : (m.reclaim slot).slotToTag other = some tag ↔
    other ≠ slot ∧ m.slotToTag other = some tag := by
  cases held : m.slotToTag slot with
  | none =>
    simp only [reclaim, held]
    refine ⟨fun old => ⟨?_, old⟩, And.right⟩
    rintro rfl
    cases held.symm.trans old
  | some tag' => simp only [reclaim, held, update_none_eq_some]

variable (m)

theorem reclaim_emptySlots (slot : ℕ) :
    (m.reclaim slot).emptySlots = m.emptySlots ++ [slot] := by
  cases held : m.slotToTag slot <;> simp [reclaim, held]

theorem reclaim_deletedSlots (slot : ℕ) :
    (m.reclaim slot).deletedSlots = m.deletedSlots := by
  cases held : m.slotToTag slot <;> simp [reclaim, held]

theorem reclaim_capacity (slot : ℕ) :
    (m.reclaim slot).capacity = m.capacity := by
  cases held : m.slotToTag slot <;> simp [reclaim, held]

variable {m}

/-- A deleted slot becomes free. Its tag is not active, so that both its entries can go. -/
theorem reclaim {slot : ℕ} {pending : List ℕ}
    (books : Books m.emptySlots { m with deletedSlots := (slot :: pending).toFinset } latest)
    (apart : slot ∉ pending) (gone : ∀ tag, m.slotToTag slot = some tag → latest tag = none) :
    Books (m.reclaim slot).emptySlots { m.reclaim slot with deletedSlots := pending.toFinset }
      latest := by
  have deleted : slot ∈ (slot :: pending).toFinset := by simp
  have keeps : ∀ other ∈ (slot :: pending).toFinset, other ≠ slot → other ∈ pending.toFinset := by
    intro other mem ne
    simpa [ne] using mem
  have active : ∀ tag other, latest tag = some other → other ≠ slot := by
    rintro tag other held rfl
    exact (books.active tag other held).1 deleted
  rw [reclaim_emptySlots]
  refine ⟨fun tag other held => ?_, fun tag other held => ?_, fun tag other held => ?_,
    fun tag other old => ?_, fun other tag old => ?_, ?_, fun other mem => ?_,
    fun other bound => ?_⟩
  · refine reclaim_tagToSlot.mpr ⟨fun same => ?_, books.tagToSlot tag other held⟩
    cases (gone tag same).symm.trans held
  · exact reclaim_slotToTag.mpr ⟨active tag other held, books.slotToTag tag other held⟩
  · obtain ⟨alive, notFree⟩ := books.active tag other held
    refine ⟨fun mem => alive ?_, ?_⟩
    · simp only [toFinset_cons, Finset.mem_insert]
      exact .inr mem
    · simp [notFree, active tag other held]
  · obtain ⟨other', old⟩ := reclaim_tagToSlot.mp old
    obtain ⟨back, held⟩ := books.mapped tag other old
    have ne : other ≠ slot := by
      rintro rfl
      exact other' back
    exact ⟨reclaim_slotToTag.mpr ⟨ne, back⟩,
      held.imp_right fun mem => keeps other mem ne⟩
  · obtain ⟨ne, old⟩ := reclaim_slotToTag.mp old
    exact (books.tagged other tag old).imp_right fun mem => keeps other mem ne
  · refine books.nodup.append (nodup_singleton slot) ?_
    rw [disjoint_singleton]
    exact fun mem => books.idle slot mem deleted
  · rcases mem_append.mp mem with old | new
    · intro mem
      refine books.idle other old ?_
      simp only [toFinset_cons, Finset.mem_insert]
      exact .inr mem
    · rw [mem_singleton.mp new]
      simpa using apart
  · have bound : other < m.capacity - 1 := reclaim_capacity m slot ▸ bound
    by_cases same : other = slot
    · exact .inl (mem_append_right _ (mem_singleton.mpr same))
    · rcases books.covered other bound with mem | mem | held
      · exact .inl (mem_append_left _ mem)
      · exact .inr (.inl (keeps other mem same))
      · exact .inr (.inr held)

theorem reclaimAll {pending : List ℕ} (empty : m.deletedSlots = ∅)
    (books : Books m.emptySlots { m with deletedSlots := pending.toFinset } latest)
    (nodup : pending.Nodup)
    (gone : ∀ slot ∈ pending, ∀ tag, m.slotToTag slot = some tag → latest tag = none) :
    Books (pending.foldl TagSlotManager.reclaim m).emptySlots
      (pending.foldl TagSlotManager.reclaim m) latest := by
  induction pending generalizing m with
  | nil =>
    rw [toFinset_nil, ← empty] at books
    exact books
  | cons slot pending ih =>
    obtain ⟨apart, nodup⟩ := nodup_cons.mp nodup
    obtain ⟨first, later⟩ := forall_mem_cons.mp gone
    exact ih ((reclaim_deletedSlots m slot).trans empty) (books.reclaim apart first) nodup
      fun other mem tag old => later other mem tag (reclaim_slotToTag.mp old).2

/-- The slots of tags that are not active all become free. -/
theorem consolidate (books : Books m.emptySlots m latest) (order : DrainOrder)
    (gone : ∀ slot ∈ m.deletedSlots, ∀ tag, m.slotToTag slot = some tag → latest tag = none) :
    Books (m.consolidate order).emptySlots (m.consolidate order) latest := by
  refine reclaimAll rfl ?_ (order.nodup _) fun slot mem =>
    gone slot ((order.mem_iff _ slot).mp mem)
  rw [order.toFinset_drain]
  exact books

/-- The tag of a reclaimed slot is forgotten, whatever slot it has. -/
theorem foldl_reclaim_forgets {pending : List ℕ} {slot tag : ℕ} (nodup : pending.Nodup)
    (forgets : m.tagToSlot tag = none ∨ slot ∈ pending ∧ m.slotToTag slot = some tag) :
    (pending.foldl TagSlotManager.reclaim m).tagToSlot tag = none := by
  induction pending generalizing m with
  | nil =>
    rcases forgets with forgotten | ⟨mem, -⟩
    · exact forgotten
    · cases mem
  | cons first pending ih =>
    obtain ⟨apart, nodup⟩ := nodup_cons.mp nodup
    refine ih nodup ?_
    rcases forgets with forgotten | ⟨mem, held⟩
    · refine .inl (Option.eq_none_iff_forall_ne_some.mpr fun other old => ?_)
      cases forgotten.symm.trans (reclaim_tagToSlot.mp old).2
    · rcases mem_cons.mp mem with rfl | mem
      · exact .inl (Option.eq_none_iff_forall_ne_some.mpr fun other old =>
          (reclaim_tagToSlot.mp old).1 held)
      · exact .inr ⟨mem, reclaim_slotToTag.mpr ⟨ne_of_mem_of_not_mem mem apart, held⟩⟩

include books

theorem reclaimable_iff : Reclaimable m ↔
    ∀ slot ∈ m.deletedSlots, ∀ tag, m.slotToTag slot = some tag → latest tag = none := by
  refine ⟨fun reclaimable slot mem tag held => ?_, fun gone slot mem tag held other mapped => ?_⟩
  · refine Option.eq_none_iff_forall_ne_some.mpr fun other active => ?_
    exact (books.active tag other active).1
      (reclaimable slot mem tag held other (books.tagToSlot tag other active))
  · refine (books.mapped tag other mapped).2.resolve_left fun active => ?_
    cases (gone slot mem tag held).symm.trans active

/-- The slots of tags that are active. -/
theorem lookup {tag : ℕ} (active : latest tag ≠ none) :
    ∃ slot, m.tagToSlot tag = some slot := by
  obtain ⟨slot, held⟩ := Option.ne_none_iff_exists'.mp active
  exact ⟨slot, books.tagToSlot tag slot held⟩

end Books

theorem mapM_eq_pure {α β : Type} {f : α → Except String β} {xs : List α}
    (each : ∀ x ∈ xs, ∃ y, f x = pure y) : ∃ ys, xs.mapM f = pure ys := by
  induction xs with
  | nil => exact ⟨[], mapM_nil⟩
  | cons x xs ih =>
    obtain ⟨⟨y, first⟩, later⟩ := forall_mem_cons.mp each
    obtain ⟨ys, rest⟩ := ih later
    exact ⟨y :: ys, by rw [mapM_cons, first, pure_bind, rest, pure_bind]⟩

/-- The books of a whole session give what is promised. -/
theorem Books.consistent (books : Books s.bookKeeping.emptySlots s.bookKeeping s.latest) :
    Consistent s where
  tagToSlot := books.tagToSlot
  slotToTag := books.slotToTag
  distinct _ _ _ := books.injective
  partition slot bound := by
    rcases books.covered slot bound with mem | deleted | ⟨tag, held⟩
    · exact .inl ⟨count_eq_one_of_mem books.nodup mem,
        fun tag held => (books.active tag slot held).2 mem, books.idle slot mem⟩
    · exact .inr (.inr ⟨fun mem => books.idle slot mem deleted,
        fun tag held => (books.active tag slot held).1 deleted, deleted⟩)
    · obtain ⟨alive, notFree⟩ := books.active tag slot held
      exact .inr (.inl ⟨notFree, ⟨tag, held⟩, alive⟩)
  replace tags active := mapM_eq_pure fun tag mem => by
    obtain ⟨slot, held⟩ := books.lookup (active tag mem)
    exact ⟨slot, by rw [held]⟩
  delete tags active := by
    obtain ⟨slots, found⟩ : ∃ slots, s.bookKeeping.findSlotsByTags tags = pure slots :=
      mapM_eq_pure fun tag mem => by
        obtain ⟨slot, held⟩ := books.lookup (active tag mem)
        exact ⟨slot, by rw [held]⟩
    obtain ⟨deletedSlots, marked, -⟩ := books.markAll active tags.nodup_toList
    refine ⟨(slots, { s.bookKeeping with deletedSlots }), ?_⟩
    rw [Managed.delete, found, pure_bind, TagSlotManager.markTagsDeleted, marked, pure_bind]
  translation groundtruth active := mapM_eq_pure fun row mem => mapM_eq_pure fun tag inside => by
    obtain ⟨slot, held⟩ := books.lookup (active row mem tag inside)
    exact ⟨slot, by rw [held]⟩

/-! ## The books along a runbook -/

theorem insert_eq_pure {m m' : TagSlotManager} {tags : SimpleRange} {slots : List ℕ}
    (inserted : Managed.insert m tags = pure (slots, m')) :
    tags.toList.length ≤ m.emptySlots.length ∧ slots = m.emptySlots.take tags.toList.length ∧
      m' = (tags.toList.zip slots).foldl TagSlotManager.assign
        { m with emptySlots := m.emptySlots.drop tags.toList.length } := by
  obtain ⟨⟨slots', m₁⟩, taken, inserted⟩ := except_bind_eq_ok.mp inserted
  obtain ⟨m₂, assigned, inserted⟩ := except_bind_eq_ok.mp inserted
  obtain ⟨rfl, rfl⟩ := Prod.mk.inj (Except.ok.inj inserted)
  unfold TagSlotManager.getNEmptySlots at taken
  split_ifs at taken with short
  obtain ⟨rfl, rfl⟩ := Prod.mk.inj (Except.ok.inj taken)
  unfold TagSlotManager.assignSlotsToTags at assigned
  split_ifs at assigned with ne
  exact ⟨not_lt.mp short, rfl, (Except.ok.inj assigned).symm⟩

/-- An insertion changes the maps alone, and gives the slots in `slotToTag` to its own tags. -/
theorem foldl_assign_eq (entries : List (ℕ × ℕ)) (m : TagSlotManager) : ∃ tagToSlot slotToTag,
    entries.foldl TagSlotManager.assign m = { m with tagToSlot, slotToTag } ∧
      ∀ slot tag, slotToTag slot = some tag → (tag, slot) ∈ entries ∨ m.slotToTag slot = some tag := by
  induction entries generalizing m with
  | nil => exact ⟨_, _, rfl, fun slot tag => .inr⟩
  | cons entry entries ih =>
    obtain ⟨tagToSlot, slotToTag, same, older⟩ := ih (m.assign entry)
    refine ⟨tagToSlot, slotToTag, same, fun slot tag held => ?_⟩
    rcases older slot tag held with mem | old
    · exact .inl (mem_cons_of_mem _ mem)
    · rcases update_some_eq_some.mp old with ⟨rfl, rfl⟩ | ⟨-, old⟩
      · exact .inl mem_cons_self
      · exact .inr old

theorem foldl_recordInsert_ne_none (entries : List (ℕ × ℕ)) (latest : ℕ → Option ℕ) (tag : ℕ) :
    entries.foldl Session.recordInsert latest tag ≠ none ↔
      tag ∈ entries.map Prod.fst ∨ latest tag ≠ none := by
  induction entries generalizing latest with
  | nil => simp
  | cons entry entries ih =>
    rw [foldl_cons, ih, Session.recordInsert,
      update_apply]
    split_ifs with same
    · simp [same]
    · simp [same]

theorem foldl_recordDelete_ne_none (tags : List ℕ) (latest : ℕ → Option ℕ) (tag : ℕ) :
    tags.foldl Session.recordDelete latest tag ≠ none ↔ latest tag ≠ none ∧ tag ∉ tags := by
  induction tags generalizing latest with
  | nil => simp
  | cons first tags ih =>
    rw [foldl_cons, ih, Session.recordDelete, update_apply]
    split_ifs with same
    · simp [same]
    · simp [same]

/-- The books are in order, and the validator has the same active tags. -/
structure Tracks (v : Validate) (s : Session) : Prop where
  books : Books s.bookKeeping.emptySlots s.bookKeeping s.latest
  wellFormed : WellFormed v.active
  active : ∀ tag, s.latest tag ≠ none ↔ Covers v.active tag

namespace Tracks

variable {v v' : Validate} {s s' : Session}

variable (tracks : Tracks v s)
include tracks

theorem insert {tags : SimpleRange} (ok : v.insert tags = pure v')
    (ran : s.step (.stage (.insert tags)) = pure s') : Tracks v' s' := by
  obtain ⟨wellFormed, fresh, covers, -⟩ := insert_spec tracks.wellFormed ok
  obtain ⟨⟨slots, m'⟩, inserted, ran⟩ := except_bind_eq_ok.mp ran
  obtain ⟨length, rfl, rfl⟩ := insert_eq_pure inserted
  cases ran
  have firsts : (tags.toList.zip (s.bookKeeping.emptySlots.take tags.toList.length)).map Prod.fst =
      tags.toList := map_fst_zip (by rw [length_take_of_le length])
  refine ⟨?_, wellFormed, fun tag => ?_⟩
  · obtain ⟨_, _, same, -⟩ := foldl_assign_eq (tags.toList.zip
      (s.bookKeeping.emptySlots.take tags.toList.length)) { s.bookKeeping with
        emptySlots := s.bookKeeping.emptySlots.drop tags.toList.length }
    rw [congrArg TagSlotManager.emptySlots same]
    refine Books.assignAll ?_ (fun entry mem => ?_) (by rw [firsts]; exact tags.nodup_toList)
    · rw [map_snd_zip (by rw [length_take_of_le length]), take_append_drop]
      exact { tracks.books with }
    · have inside : tags.contains entry.1 = true :=
        (tags.mem_toList_iff _).mp (firsts ▸ mem_map_of_mem mem)
      exact not_not.mp (mt (tracks.active entry.1).mp (fresh entry.1 inside))
  · rw [foldl_recordInsert_ne_none, firsts, tags.mem_toList_iff, tracks.active, covers]

/-- What an accepted deletion changes. -/
theorem delete_eq {tags : SimpleRange} (ok : v.delete tags = pure v')
    (ran : s.step (.stage (.delete tags)) = pure s') : ∃ deletedSlots,
      s' = ⟨{ s.bookKeeping with deletedSlots }, tags.toList.foldl Session.recordDelete s.latest⟩ ∧
      deletedSlots.card = s.bookKeeping.deletedSlots.card + tags.toList.length ∧
      Books s.bookKeeping.emptySlots { s.bookKeeping with deletedSlots }
        (tags.toList.foldl Session.recordDelete s.latest) := by
  obtain ⟨-, present, -⟩ := delete_spec tracks.wellFormed ok
  obtain ⟨deletedSlots, marked, kept⟩ := tracks.books.markAll (fun tag mem =>
    (tracks.active tag).mpr (present tag ((tags.mem_toList_iff tag).mp mem))) tags.nodup_toList
  obtain ⟨⟨slots, m''⟩, deleted, ran⟩ := except_bind_eq_ok.mp ran
  obtain ⟨found, -, deleted⟩ := except_bind_eq_ok.mp deleted
  obtain ⟨m₁, marked', deleted⟩ := except_bind_eq_ok.mp deleted
  obtain rfl := Except.ok.inj (marked.symm.trans marked')
  obtain ⟨-, rfl⟩ := Prod.mk.inj (Except.ok.inj deleted)
  cases ran
  exact ⟨deletedSlots, rfl, kept⟩

theorem delete {tags : SimpleRange} (ok : v.delete tags = pure v')
    (ran : s.step (.stage (.delete tags)) = pure s') : Tracks v' s' := by
  obtain ⟨wellFormed, -, covers, -⟩ := delete_spec tracks.wellFormed ok
  obtain ⟨deletedSlots, rfl, -, books⟩ := tracks.delete_eq ok ran
  refine ⟨books, wellFormed, fun tag => ?_⟩
  rw [foldl_recordDelete_ne_none, tags.mem_toList_iff, tracks.active, covers]

omit tracks in
/-- Only insertions and deletions change anything. -/
theorem stage_cases {stage : Stage} (ok : v.stage stage = pure v')
    (ran : s.step (.stage stage) = pure s') : (∃ tags, stage = .insert tags) ∨
      (∃ tags, stage = .delete tags) ∨ stage.inserted = [] ∧ v' = v ∧ s' = s := by
  cases stage with
  | insert tags => exact .inl ⟨tags, rfl⟩
  | delete tags => exact .inr (.inl ⟨tags, rfl⟩)
  | search groundtruth =>
    obtain ⟨-, -, ran⟩ := except_bind_eq_ok.mp ran
    cases ran
    exact .inr (.inr ⟨rfl, (Except.ok.inj (Option.some.inj ok)).symm, rfl⟩)
  | replace offsets tags =>
    obtain ⟨-, -, ran⟩ := except_bind_eq_ok.mp ran
    cases ran
    exact .inr (.inr ⟨rfl, (replace_spec ok).1, rfl⟩)

theorem stage {stage : Stage} (ok : v.stage stage = pure v')
    (ran : s.step (.stage stage) = pure s') : Tracks v' s' := by
  obtain ⟨tags, rfl⟩ | ⟨tags, rfl⟩ | ⟨-, rfl, rfl⟩ := stage_cases ok ran
  · exact tracks.insert ok ran
  · exact tracks.delete ok ran
  · exact tracks

theorem maintain {order : DrainOrder} (reclaimable : Reclaimable s.bookKeeping) :
    Tracks v { s with bookKeeping := Managed.maintain s.bookKeeping order } where
  books := tracks.books.consolidate order (tracks.books.reclaimable_iff.mp reclaimable)
  wellFormed := tracks.wellFormed
  active := tracks.active

/-- Maintenance forgets an active tag that a deleted slot had before. -/
theorem not_consistent_maintain {order : DrainOrder}
    (stale : ¬ Reclaimable s.bookKeeping) :
    ¬ Consistent { s with bookKeeping := Managed.maintain s.bookKeeping order } := by
  intro consistent
  rw [tracks.books.reclaimable_iff] at stale
  push Not at stale
  obtain ⟨slot, deleted, tag, held, active⟩ := stale
  obtain ⟨other, active⟩ := Option.ne_none_iff_exists'.mp active
  have forgotten := Books.foldl_reclaim_forgets (order.nodup s.bookKeeping.deletedSlots)
    (m := { s.bookKeeping with deletedSlots := ∅ })
    (.inr ⟨(order.mem_iff _ slot).mpr deleted, held⟩)
  cases forgotten.symm.trans (consistent.tagToSlot tag other active)

end Tracks

theorem stages_stage (stage : Stage) (steps : List Step) :
    stages (.stage stage :: steps) = stage :: stages steps := rfl

namespace Session

theorem run_nil (s : Session) : s.run [] = pure s := rfl

theorem run_cons_eq_pure {s s' : Session} {step : Step} {steps : List Step} :
    s.run (step :: steps) = pure s' ↔ ∃ s₁, s.step step = pure s₁ ∧ s₁.run steps = pure s' := by
  rw [run, foldlM_cons]
  exact except_bind_eq_ok

end Session

/-- Each step of an accepted runbook, as long as maintenance finds reclaimable slots only. -/
theorem Tracks.step {v v' : Validate} {s₁ : Session} {step : Step} {steps : List Step}
    (tracks : Tracks v s) (ok : (stages (step :: steps)).foldlM Validate.stage v = pure v')
    (reclaimable : ∀ order, step = .maintain order → Reclaimable s.bookKeeping)
    (ran : s.step step = pure s₁) :
    ∃ v₁, Tracks v₁ s₁ ∧ (stages steps).foldlM Validate.stage v₁ = pure v' := by
  cases step with
  | maintain order =>
    cases ran
    exact ⟨v, tracks.maintain (reclaimable order rfl), ok⟩
  | stage stage =>
    rw [stages_stage, foldlM_cons, bind_eq_pure] at ok
    obtain ⟨v₁, first, later⟩ := ok
    exact ⟨v₁, tracks.stage first ran, later⟩

/-- The session is consistent all along an accepted runbook. -/
theorem Tracks.consistent_iff {v v' : Validate} {steps : List Step} (tracks : Tracks v s)
    (ok : (stages steps).foldlM Validate.stage v = pure v') :
    (∀ done rest, steps = done ++ rest → ∀ s', s.run done = pure s' → Consistent s') ↔
      ∀ done order rest, steps = done ++ .maintain order :: rest → ∀ s', s.run done = pure s' →
        Reclaimable s'.bookKeeping := by
  induction steps generalizing v s with
  | nil =>
    refine iff_of_true (fun done rest split s' ran => ?_) fun done order rest split => ?_
    · rw [(append_eq_nil_iff.mp split.symm).1] at ran
      cases ran
      exact tracks.books.consistent
    · cases (append_eq_nil_iff.mp split.symm).2
  | cons step steps ih =>
    refine ⟨fun consistent => ?_, fun reclaimable => ?_⟩
    · have first : ∀ order, step = .maintain order → Reclaimable s.bookKeeping := by
        rintro order rfl
        by_contra stale
        exact tracks.not_consistent_maintain stale (consistent [.maintain order] steps rfl _
          (Session.run_cons_eq_pure.mpr ⟨_, rfl, Session.run_nil _⟩))
      intro done order rest split s' ran
      cases done with
      | nil =>
        obtain ⟨same, -⟩ := List.cons.inj split
        cases ran
        exact first order same
      | cons step' done =>
        obtain ⟨rfl, remaining⟩ := List.cons.inj split
        obtain ⟨s₁, ran₁, ran⟩ := Session.run_cons_eq_pure.mp ran
        obtain ⟨v₁, tracks₁, accepted₁⟩ := tracks.step ok first ran₁
        refine (ih tracks₁ accepted₁).mp (fun done' rest' split' s'' ran' => ?_) done order rest
          remaining s' ran
        exact consistent (step :: done') rest' (congrArg (step :: ·) split') s''
          (Session.run_cons_eq_pure.mpr ⟨s₁, ran₁, ran'⟩)
    · intro done rest split s' ran
      cases done with
      | nil =>
        cases ran
        exact tracks.books.consistent
      | cons step' done =>
        obtain ⟨rfl, remaining⟩ := List.cons.inj split
        obtain ⟨s₁, ran₁, ran⟩ := Session.run_cons_eq_pure.mp ran
        obtain ⟨v₁, tracks₁, accepted₁⟩ := tracks.step ok (fun order same =>
          reclaimable [] order steps (congrArg (· :: steps) same) s (Session.run_nil s)) ran₁
        refine (ih tracks₁ accepted₁).mpr (fun done' order rest' split' s'' ran' => ?_) done rest
          remaining s' ran
        exact reclaimable (step :: done') order rest' (congrArg (step :: ·) split') s''
          (Session.run_cons_eq_pure.mpr ⟨s₁, ran₁, ran'⟩)

variable (started : Session.start capacity = some s)
include started

theorem start_eq_some :
    0 < capacity ∧ s = ⟨⟨List.range ((capacity - 1) % 2 ^ 32), ∅, fun _ => none, fun _ => none,
      capacity⟩, fun _ => none⟩ := by
  obtain ⟨m, created, rfl⟩ := Option.map_eq_some_iff.mp started
  unfold TagSlotManager.new at created
  split_ifs at created with zero
  cases created
  exact ⟨Nat.pos_of_ne_zero zero, rfl⟩

/-- An empty session has all slots free, if their number fits its type. -/
theorem Tracks.start (fits : capacity ≤ 2 ^ 32) :
    Tracks .new s := by
  obtain ⟨pos, rfl⟩ := start_eq_some started
  have whole : (capacity - 1) % 2 ^ 32 = capacity - 1 := Nat.mod_eq_of_lt (by omega)
  refine ⟨⟨?_, ?_, ?_, ?_, ?_, nodup_range, ?_, ?_⟩, ⟨List.Pairwise.nil, forall_mem_nil _⟩,
    fun tag => iff_of_false (fun active => active rfl) fun ⟨_, mem, _⟩ => nomatch mem⟩
  all_goals try exact fun _ _ held => nomatch held
  intro slot bound
  rw [whole]
  exact .inl (mem_range.mpr bound)

/-- Slots beyond the numbers of 32 bits are in no place at all. -/
theorem not_consistent_start (large : ¬ capacity ≤ 2 ^ 32) : ¬ Consistent s := by
  obtain ⟨pos, rfl⟩ := start_eq_some started
  intro consistent
  have bound : capacity - 2 < capacity - 1 := by omega
  have outside : capacity - 2 ∉ List.range ((capacity - 1) % 2 ^ 32) := by
    rw [mem_range]
    omega
  rcases consistent.partition (capacity - 2) bound with ⟨once, -⟩ | ⟨-, ⟨_, held⟩, -⟩ | ⟨-, -, deleted⟩
  · rw [count_eq_zero_of_not_mem outside] at once
    cases once
  · cases held
  · cases deleted

omit started

/-- The bookkeeping is consistent all along an accepted runbook exactly if the slots fit 32 bits and
each maintenance finds no deleted slot whose tag has been inserted again. -/
theorem bookKeeping_consistent_iff (capacity maxPoints : ℕ) {start : Session} {steps : List Step}
    {runbook : RunBook} (started : Session.start capacity = some start)
    (accepted : RunBook.new (stages steps) maxPoints = pure runbook) :
    (∀ done rest, steps = done ++ rest → ∀ s, start.run done = pure s → Consistent s) ↔
      capacity ≤ 2 ^ 32 ∧ ∀ done order rest, steps = done ++ .maintain order :: rest →
        ∀ s, start.run done = pure s → Reclaimable s.bookKeeping := by
  obtain ⟨v, accepted, -⟩ := bind_eq_pure.mp accepted
  by_cases fits : capacity ≤ 2 ^ 32
  · rw [(Tracks.start started fits).consistent_iff accepted]
    exact (and_iff_right fits).symm
  · refine iff_of_false (fun consistent => ?_) fun ⟨fits', _⟩ => fits fits'
    exact not_consistent_start started fits (consistent [] steps rfl start (start.run_nil))

/-- The slots of a hash set that happens to give them in ascending order. -/
def ascending : DrainOrder where
  drain slots := slots.sort (· ≤ ·)
  nodup slots := slots.sort_nodup (· ≤ ·)
  mem_iff slots _ := slots.mem_sort (· ≤ ·)

/-- With the maintenance before the tag is inserted again, nothing is lost. -/
theorem bookKeeping_consistent_reclaimed : ∃ start, Session.start 4 = some start ∧
    ∀ done rest, [.stage (.insert ⟨0, 1⟩), .stage (.delete ⟨0, 1⟩), .maintain ascending,
      .stage (.insert ⟨0, 1⟩)] = done ++ rest → ∀ s, start.run done = pure s → Consistent s := by
  refine ⟨_, rfl, (bookKeeping_consistent_iff 4 0 rfl rfl).mpr ⟨by decide, ?_⟩⟩
  rintro (_ | ⟨first, _ | ⟨second, _ | ⟨third, _ | ⟨fourth, done⟩⟩⟩⟩) order rest split s ran
  · cases split
  · cases split
  · cases split
    cases ran
    intro slot member tag held other mapped
    obtain ⟨-, rfl⟩ | ⟨-, unmapped⟩ := update_some_eq_some.mp mapped
    · exact Finset.mem_insert_self 0 ∅
    · cases unmapped
  · cases split
  · simp at split

/-- A tag is deleted, inserted again, and lost by the maintenance that follows. -/
theorem reinserted_tag_forgotten : ∃ runbook start s,
    RunBook.new (stages [.stage (.insert ⟨0, 1⟩), .stage (.delete ⟨0, 1⟩), .stage (.insert ⟨0, 1⟩),
      .maintain ascending]) 0 = pure runbook ∧
    Session.start 4 = some start ∧
    start.run [.stage (.insert ⟨0, 1⟩), .stage (.delete ⟨0, 1⟩), .stage (.insert ⟨0, 1⟩),
      .maintain ascending] = pure s ∧
    s.latest 0 = some 1 ∧ s.bookKeeping.tagToSlot 0 = none ∧ ¬ Consistent s := by
  have forgotten : ∀ m : TagSlotManager, m.deletedSlots = {0} → m.slotToTag 0 = some 0 →
      (m.consolidate ascending).tagToSlot 0 = none := by
    intro m deleted held
    refine Books.foldl_reclaim_forgets (ascending.nodup _) (.inr ⟨?_, held⟩)
    rw [ascending.mem_iff, deleted]
    exact Finset.mem_singleton_self 0
  refine ⟨_, _, _, rfl, rfl, rfl, rfl, forgotten _ rfl rfl, fun consistent => ?_⟩
  cases (forgotten _ rfl rfl).symm.trans (consistent.tagToSlot 0 1 rfl)

end DiskAnn.Streaming
