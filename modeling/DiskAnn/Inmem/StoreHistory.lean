import DiskAnn.Inmem.StoreSafety
import DiskAnn.Inmem.StoreSolo

/-! # Histories of calls to the store

One call after the other, with the slots and the readers that are live in between. In such a history
every id that waits for recycling is available, each retired slot is in one queue, and slots that have
not been minted are available, so that `acquire` fails only where nothing can be found.
-/

namespace DiskAnn.Inmem.Store

open Machine Prog List Function State Epoch

variable {n : ℕ} {τ : Type} [DecidableEq τ] {layout : Layout}

/-- The calls made so far, with the slots and the readers that are live after them. -/
inductive History [NeZero n] (layout : Layout) (start : State n τ) :
    State n τ × ℕ → List ℕ → List (Fin n) → Prop
  | start : History layout start (start, 0) [] []
  | acquire {s s' : State n τ × ℕ} {slots : List ℕ} {readers : List (Fin n)} {task : τ}
      {r : Option Slot} (before : History layout start s slots readers)
      (run : (acquire layout).Runs (countingExec layout) task s r s') :
      History layout start s' ((r.map Slot.slot).toList ++ slots) readers
  | publish {s s' : State n τ × ℕ} {slots : List ℕ} {readers : List (Fin n)} {task : τ} {i id : ℕ}
      (before : History layout start s slots readers) (held : i ∈ slots)
      (run : (Slot.mk i).publish.Runs (countingExec layout) task s id s') :
      History layout start s' (slots.erase i) readers
  | drop {s s' : State n τ × ℕ} {slots : List ℕ} {readers : List (Fin n)} {task : τ} {i : ℕ}
      (before : History layout start s slots readers) (held : i ∈ slots)
      (run : (Slot.mk i).drop.Runs (countingExec layout) task s () s') :
      History layout start s' (slots.erase i) readers
  | retire {s s' : State n τ × ℕ} {slots : List ℕ} {readers : List (Fin n)} {task : τ} {i : ℕ}
      {r : Except RetireError Unit} (before : History layout start s slots readers)
      (run : (retire layout i).Runs (countingExec layout) task s r s') :
      History layout start s' slots readers
  | openReader {s s' : State n τ × ℕ} {slots : List ℕ} {readers : List (Fin n)} {task : τ}
      {guard : Epoch.Guard n} (before : History layout start s slots readers)
      (run : (registry Epoch.guard).Runs (countingExec layout) task s (.ok guard) s') :
      History layout start s' slots (guard.slot :: readers)
  | refuseReader {s s' : State n τ × ℕ} {slots : List ℕ} {readers : List (Fin n)} {task : τ}
      {error : Epoch.Unavailable} (before : History layout start s slots readers)
      (run : (registry Epoch.guard).Runs (countingExec layout) task s (.error error) s') :
      History layout start s' slots readers
  | closeReader {s s' : State n τ × ℕ} {slots : List ℕ} {readers : List (Fin n)} {task : τ}
      {slot : Fin n} (before : History layout start s slots readers) (held : slot ∈ readers)
      (run : (access (.epoch (.dropGuard slot))).Runs (countingExec layout) task s () s') :
      History layout start s' slots (readers.erase slot)
  | tryDrain {s s' : State n τ × ℕ} {slots : List ℕ} {readers : List (Fin n)} {task : τ}
      {r : Option ℕ} (before : History layout start s slots readers)
      (run : (tryDrain layout).Runs (countingExec layout) task s r s') :
      History layout start s' slots readers

/-! ## The slots between calls -/

/-- What the tags say while no call is under way. -/
structure Settled (layout : Layout) (slots : List ℕ) (s : Plain n) : Prop where
  queued : ∀ q, ∀ i ∈ s.registry.retiring q,
    i < layout.unfrozen ∧ s.tags i = .retiring ∧ s.mirrors i = .retiring
  nodup : ∀ q, (s.registry.retiring q).Nodup
  apart : ∀ q q' i, i ∈ s.registry.retiring q → i ∈ s.registry.retiring q' → q = q'
  retiring : ∀ i < layout.total, s.tags i = .retiring → ∃ q, i ∈ s.registry.retiring q
  distinct : s.recycled.Nodup
  recycled : ∀ i ∈ s.recycled, i < layout.unfrozen ∧ s.tags i = .available
  minted : s.next ≤ layout.unfrozen
  unminted : ∀ i, s.next ≤ i → i < layout.unfrozen → s.tags i = .available ∧ i ∉ s.recycled
  frozen : ∀ i, layout.unfrozen ≤ i → i < layout.total → s.tags i = .frozen
  owned : ∀ i ∈ slots, i < layout.unfrozen ∧ s.tags i = .owned
  once : slots.Nodup

/-- The store between calls, with the slots and readers that are live. -/
structure Orderly (layout : Layout) (slots : List ℕ) (readers : List (Fin n)) (s : Plain n) : Prop where
  settled : Settled layout slots s
  unlocked : s.registry.drain = false
  bounded : s.registry.epoch < Epoch.wordSize
  guarded : ∀ slot, s.registry.guards slot ≠ 0 → slot ∈ readers
  counter : s.scanBucket = s.handed % 2 ^ 32

namespace Settled

variable {slots : List ℕ} {s : Plain n} (settled : Settled layout slots s)
include settled

omit settled in
/-- Another slot's tag is left alone. -/
theorem tags_kept {i j : ℕ} {old new tag : Tag} (at_i : s.tags i = old) (at_j : s.tags j = tag)
    (other : tag ≠ old) : j ≠ i ∧ update s.tags i new j = tag := by
  have apart : j ≠ i := by
    rintro rfl
    exact other (at_j.symm.trans at_i)
  exact ⟨apart, (update_of_ne apart _ _).trans at_j⟩

/-- A slot that was available is owned; what waits for recycling is left out or added to. -/
theorem claim {i : ℕ} {recycled : List ℕ} (next : ℕ)
    (below : i < layout.unfrozen) (free : s.tags i = .available) (distinct : recycled.Nodup)
    (spare : ∀ j ∈ recycled, j ≠ i ∧ j < layout.unfrozen ∧ s.tags j = .available)
    (further : s.next ≤ next) (minted : next ≤ layout.unfrozen) (passed : i < next)
    (unminted : ∀ j ∈ recycled, j < next) :
    Settled layout (i :: slots) { s.claim i with recycled, next } := by
  refine ⟨fun q j mem => ?_, settled.nodup, settled.apart, fun j bound tag => ?_, distinct,
    fun j mem => ?_, minted, fun j later bound => ?_, fun j above bound => ?_,
    forall_mem_cons.mpr ⟨⟨below, update_self _ _ _⟩, fun j mem => ?_⟩,
    nodup_cons.mpr ⟨fun mem => ?_, settled.once⟩⟩
  · obtain ⟨bound, tag, mirror⟩ := settled.queued q j mem
    exact ⟨bound, (tags_kept free tag nofun).2, mirror⟩
  · have ne : j ≠ i := by
      rintro rfl
      cases (s.claim_tags_self j).symm.trans tag
    exact settled.retiring j bound ((s.claim_tags_of_ne ne).symm.trans tag)
  · obtain ⟨ne, bound, tag⟩ := spare j mem
    exact ⟨bound, (s.claim_tags_of_ne ne).trans tag⟩
  · have tag := (settled.unminted j (further.trans later) bound).1
    have ne : j ≠ i := (passed.trans_le later).ne'
    exact ⟨(s.claim_tags_of_ne ne).trans tag, fun mem =>
      absurd (unminted j mem) (not_lt.mpr later)⟩
  · have tag := settled.frozen j above bound
    exact (tags_kept free tag nofun).2
  · obtain ⟨bound, tag⟩ := settled.owned j mem
    exact ⟨bound, (tags_kept free tag nofun).2⟩
  · cases free.symm.trans (settled.owned i mem).2

/-- A slot in hand is published or given up. -/
theorem giveBack {i : ℕ} {tag : Tag} (held : i ∈ slots)
    (settles : tag ≠ .retiring) : Settled layout (slots.erase i) { s with
      mirrors := update s.mirrors i tag
      tags := update s.tags i tag } := by
  obtain ⟨below, owned⟩ := settled.owned i held
  refine ⟨fun q j mem => ?_, settled.nodup, settled.apart, fun j bound held => ?_, settled.distinct,
    fun j mem => ?_, settled.minted, fun j later bound => ?_, fun j above bound => ?_,
    fun j mem => ?_, settled.once.erase i⟩
  · obtain ⟨bound, held, mirror⟩ := settled.queued q j mem
    obtain ⟨apart, kept⟩ := tags_kept owned held nofun
    exact ⟨bound, kept, (update_of_ne apart _ _).trans mirror⟩
  · have apart : j ≠ i := by
      rintro rfl
      exact settles ((update_self j tag s.tags).symm.trans held)
    exact settled.retiring j bound ((update_of_ne apart tag s.tags).symm.trans held)
  · obtain ⟨bound, free⟩ := settled.recycled j mem
    exact ⟨bound, (tags_kept owned free nofun).2⟩
  · obtain ⟨free, unlisted⟩ := settled.unminted j later bound
    exact ⟨(tags_kept owned free nofun).2, unlisted⟩
  · have frozen := settled.frozen j above bound
    exact (tags_kept owned frozen nofun).2
  · obtain ⟨apart, mem⟩ := (settled.once.mem_erase_iff).mp mem
    obtain ⟨bound, held⟩ := settled.owned j mem
    exact ⟨bound, (update_of_ne apart _ _).trans held⟩

omit settled in
omit [DecidableEq τ] in
theorem mem_update_iff {retiring : Fin 4 → List ℕ} {q q' : Fin 4} {ids : List ℕ} {i : ℕ} :
    i ∈ update retiring q ids q' ↔ q' = q ∧ i ∈ ids ∨ q' ≠ q ∧ i ∈ retiring q' := by
  rw [update_apply]
  split_ifs with same
  · simp [same]
  · simp [same]

/-- A published slot is retired into one of the queues. -/
theorem retire {i : ℕ} (below : i < layout.total)
    (published : s.tags i = .published) (q : Fin 4) (hint : ℕ) : Settled layout slots { s with
      registry := { s.registry with
        hint
        retiring := update s.registry.retiring q (s.registry.retiring q ++ [i]) }
      tags := update s.tags i .retiring
      mirrors := update s.mirrors i .retiring } := by
  have unfrozen : i < layout.unfrozen := by
    by_contra above
    cases published.symm.trans (settled.frozen i (not_lt.mp above) below)
  have unqueued : ∀ q', i ∉ s.registry.retiring q' := fun q' mem => by
    cases published.symm.trans (settled.queued q' i mem).2.1
  have members : ∀ q' j, j ∈ update s.registry.retiring q (s.registry.retiring q ++ [i]) q' ↔
      j ∈ s.registry.retiring q' ∨ j = i ∧ q' = q := by
    intro q' j
    by_cases same : q' = q
    · subst same
      simp
    · simp [same]
  refine ⟨fun q' j mem => ?_, fun q' => ?_, fun q₁ q₂ j first second => ?_,
    fun j bound held => ?_, settled.distinct, fun j mem => ?_, settled.minted,
    fun j later bound => ?_, fun j above bound => ?_, fun j mem => ?_, settled.once⟩
  · rcases (members q' j).mp mem with old | ⟨rfl, -⟩
    · obtain ⟨bound, held, mirror⟩ := settled.queued q' j old
      obtain ⟨apart, kept⟩ := tags_kept published held nofun
      exact ⟨bound, kept, (update_of_ne apart _ _).trans mirror⟩
    · exact ⟨unfrozen, update_self _ _ _, update_self _ _ _⟩
  · by_cases same : q' = q
    · subst same
      change (update s.registry.retiring q' (s.registry.retiring q' ++ [i]) q').Nodup
      rw [update_self]
      exact (settled.nodup q').append (nodup_singleton i)
        (disjoint_singleton.mpr (unqueued q'))
    · change (update s.registry.retiring q (s.registry.retiring q ++ [i]) q').Nodup
      rw [update_of_ne same]
      exact settled.nodup q'
  · rcases (members q₁ j).mp first with old₁ | ⟨rfl, rfl⟩
    · rcases (members q₂ j).mp second with old₂ | ⟨rfl, -⟩
      · exact settled.apart q₁ q₂ j old₁ old₂
      · exact absurd old₁ (unqueued q₁)
    · rcases (members q₂ j).mp second with old₂ | ⟨-, same⟩
      · exact absurd old₂ (unqueued q₂)
      · exact same.symm
  · by_cases same : j = i
    · exact ⟨q, (members q j).mpr (.inr ⟨same, rfl⟩)⟩
    · obtain ⟨q', mem⟩ := settled.retiring j bound
        ((update_of_ne same Tag.retiring s.tags).symm.trans held)
      exact ⟨q', (members q' j).mpr (.inl mem)⟩
  · obtain ⟨bound, free⟩ := settled.recycled j mem
    exact ⟨bound, (tags_kept published free nofun).2⟩
  · obtain ⟨free, unlisted⟩ := settled.unminted j later bound
    exact ⟨(tags_kept published free nofun).2, unlisted⟩
  · have frozen := settled.frozen j above bound
    exact (tags_kept published frozen nofun).2
  · obtain ⟨bound, held⟩ := settled.owned j mem
    exact ⟨bound, (tags_kept published held nofun).2⟩

/-- The slots of a queue are available again. -/
theorem nextEpoch {extra : List ℕ}
    (drained : Drained layout s (s.registry.retiring (lastQueue s.registry.epoch)) extra) :
    Settled layout slots (s.nextEpoch extra) := by
  generalize queue : lastQueue s.registry.epoch = q at drained
  have other : ∀ j, s.tags j ≠ .retiring → j ∉ s.registry.retiring q := fun j held mem =>
    held (settled.queued q j mem).2.1
  have tags : ∀ j, (s.nextEpoch extra).tags j =
      if j ∈ s.registry.retiring q then .available else s.tags j := by
    intro j
    rw [← queue]
    rfl
  have mirrors : ∀ j, (s.nextEpoch extra).mirrors j =
      if j ∈ s.registry.retiring q then .available else s.mirrors j := by
    intro j
    rw [← queue]
    rfl
  have queues : (s.nextEpoch extra).registry.retiring = update s.registry.retiring q [] := by
    rw [← queue]
    rfl
  refine ⟨fun q' j mem => ?_, fun q' => ?_, fun q₁ q₂ j first second => ?_,
    fun j bound held => ?_, ?_, fun j mem => ?_, settled.minted, fun j later bound => ?_,
    fun j above bound => ?_, fun j mem => ?_, settled.once⟩
  · rw [queues, mem_update_iff] at mem
    obtain ⟨-, none⟩ | ⟨ne, mem⟩ := mem
    · cases none
    · obtain ⟨bound, held, mirror⟩ := settled.queued q' j mem
      have apart : j ∉ s.registry.retiring q := fun also =>
        ne (settled.apart q' q j mem also)
      exact ⟨bound, by rw [tags, if_neg apart, held], by rw [mirrors, if_neg apart, mirror]⟩
  · rw [queues, update_apply]
    split_ifs
    · exact nodup_nil
    · exact settled.nodup q'
  · rw [queues, mem_update_iff] at first second
    obtain ⟨-, none⟩ | ⟨-, first⟩ := first
    · cases none
    obtain ⟨-, none⟩ | ⟨-, second⟩ := second
    · cases none
    exact settled.apart q₁ q₂ j first second
  · rw [tags] at held
    split_ifs at held with mem
    obtain ⟨q', also⟩ := settled.retiring j bound held
    refine ⟨q', ?_⟩
    rw [queues, mem_update_iff]
    refine .inr ⟨?_, also⟩
    rintro rfl
    exact mem also
  · refine settled.distinct.append (drained.sublist.nodup (settled.nodup q)) fun j old new => ?_
    exact other j (by rw [(settled.recycled j old).2]; decide) (drained.sublist.subset new)
  · rw [tags]
    rcases mem_append.mp mem with old | new
    · obtain ⟨bound, free⟩ := settled.recycled j old
      exact ⟨bound, by rw [free, ite_self]⟩
    · exact ⟨drained.below j new, if_pos (drained.sublist.subset new)⟩
  · obtain ⟨free, unlisted⟩ := settled.unminted j later bound
    refine ⟨by rw [tags, free, ite_self], fun mem => ?_⟩
    rcases mem_append.mp mem with old | new
    · exact unlisted old
    · exact other j (by rw [free]; decide) (drained.sublist.subset new)
  · have frozen := settled.frozen j above bound
    rw [tags, if_neg (other j (by rw [frozen]; decide)), frozen]
  · obtain ⟨bound, held⟩ := settled.owned j mem
    exact ⟨bound, by rw [tags, if_neg (other j (by rw [held]; decide)), held]⟩

end Settled

namespace Orderly

variable {slots : List ℕ} {readers : List (Fin n)} {s : Plain n} {mayPanic : Prop}
  (orderly : Orderly layout slots readers s)
include orderly

/-- Buckets handed out change nothing else. -/
theorem advance (count : ℕ) :
    Orderly layout slots readers (s.advance count) where
  settled := { orderly.settled with }
  unlocked := orderly.unlocked
  bounded := orderly.bounded
  guarded := orderly.guarded
  counter := by
    change (s.scanBucket + count) % 2 ^ 32 = (s.handed + count) % 2 ^ 32
    rw [orderly.counter, Nat.mod_add_mod]

theorem nextEpoch {extra : List ℕ}
    (room : s.registry.epoch + 1 < wordSize)
    (drained : Drained layout s (s.registry.retiring (lastQueue s.registry.epoch)) extra) :
    Orderly layout slots readers (s.nextEpoch extra) where
  settled := orderly.settled.nextEpoch drained
  unlocked := orderly.unlocked
  bounded := room
  guarded := orderly.guarded
  counter := orderly.counter

/-- The first id that waits for recycling is claimed. -/
theorem recycle {i : ℕ} {rest : List ℕ}
    (recycled : s.recycled = i :: rest) :
    s.tags i = .available ∧ i < layout.unfrozen ∧
      Orderly layout (i :: slots) readers (({ s with recycled := rest } : Plain n).claim i) := by
  have settled := orderly.settled
  obtain ⟨below, free⟩ := settled.recycled i (recycled ▸ mem_cons_self)
  obtain ⟨apart, distinct⟩ := nodup_cons.mp (recycled ▸ settled.distinct)
  have minted : ∀ j ∈ s.recycled, j < s.next := by
    intro j mem
    by_contra later
    exact (settled.unminted j (not_lt.mp later) (settled.recycled j mem).1).2 mem
  rw [recycled] at minted
  refine ⟨free, below, ?_, orderly.unlocked, orderly.bounded, orderly.guarded, orderly.counter⟩
  refine settled.claim s.next below free distinct (fun j mem => ?_) le_rfl settled.minted
    (minted i mem_cons_self) fun j mem => minted j (mem_cons_of_mem _ mem)
  exact ⟨ne_of_mem_of_not_mem mem apart,
    settled.recycled j (recycled ▸ mem_cons_of_mem _ mem)⟩

/-- A slot that has never been used is minted and claimed. -/
theorem mint (empty : s.recycled = [])
    (room : s.next < layout.unfrozen) :
    s.tags s.next = .available ∧
      Orderly layout (s.next :: slots) readers (({ s with next := s.next + 1 } : Plain n).claim s.next) := by
  have settled := orderly.settled
  have free := (settled.unminted s.next le_rfl room).1
  refine ⟨free, ?_, orderly.unlocked, orderly.bounded, orderly.guarded, orderly.counter⟩
  exact settled.claim (s.next + 1) room free settled.distinct
    (fun j mem => by rw [empty] at mem; cases mem) (Nat.le_succ _) room (Nat.lt_succ_self _)
    fun j mem => by rw [empty] at mem; cases mem

/-- A slot that a scan has found is claimed. -/
theorem found {chunk : List ℕ} {r : Option Slot} {s' : Plain n}
    (empty : s.recycled = []) (full : ¬ s.next < layout.unfrozen) (nodup : chunk.Nodup)
    (below : ∀ i ∈ chunk, i < layout.unfrozen) (found : Found layout s chunk r s') :
    ∃ i, r = some ⟨i⟩ ∧ Orderly layout (i :: slots) readers s' := by
  obtain ⟨i, extra, mem, free, rfl, apart, spare, rfl⟩ := found
  have settled := orderly.settled
  have last : s.next = layout.unfrozen := le_antisymm settled.minted (not_lt.mp full)
  refine ⟨i, rfl, ?_, orderly.unlocked, orderly.bounded, orderly.guarded, orderly.counter⟩
  rw [empty]
  exact settled.claim s.next (below i mem) free (spare.sublist.nodup nodup)
    (fun j mem => ⟨ne_of_mem_of_not_mem mem apart, spare.spare j mem⟩) le_rfl settled.minted
    (last ▸ below i mem) fun j mem => last ▸ (spare.spare j mem).1

/-- One attempt to drain. -/
theorem tryDrain_ends (exhausted : s.registry.epoch = wordSize - 1 → mayPanic) :
    Ends (Plain.steps layout) mayPanic (tryDrain layout) s fun _ s' =>
      Orderly layout slots readers s' := by
  have queued := orderly.settled.queued (lastQueue s.registry.epoch)
  refine (Store.tryDrain_ends orderly.unlocked orderly.bounded exhausted (fun i mem => ?_)
    (orderly.settled.nodup _)).mono fun _ s' drained => ?_
  · obtain ⟨below, held⟩ := queued i mem
    exact ⟨below.trans layout.unfrozen_lt, held⟩
  · obtain ⟨rfl, -⟩ | ⟨room, extra, drained, rfl⟩ := drained
    · exact orderly
    · exact orderly.nextEpoch room drained

omit orderly

/-- Whatever `acquire` finds or does not find, the store stays orderly. -/
theorem acquireWithin_ends (attempts : ℕ) (orderly : Orderly layout slots readers s) :
    Ends (Plain.steps layout) True (acquireWithin layout attempts) s fun r s' =>
      Orderly layout ((r.map Slot.slot).toList ++ slots) readers s' := by
  induction attempts generalizing s with
  | zero => exact .ret orderly
  | succ attempts ih =>
    refine freelistPop_ends.then ?_
    rintro r s₁ (⟨i, rest, recycled, rfl, rfl⟩ | ⟨empty, room, rfl, rfl⟩ | ⟨empty, full, rfl, rfl⟩)
    · obtain ⟨free, below, claimed⟩ := orderly.recycle recycled
      refine Ends.then (slot_ends (below.trans layout.unfrozen_lt)) ?_
      rintro r s₂ (⟨-, rfl, rfl⟩ | ⟨taken, -, -⟩)
      · exact .ret claimed
      · exact absurd free taken
    · obtain ⟨free, claimed⟩ := orderly.mint empty room
      refine Ends.then (slot_ends (room.trans layout.unfrozen_lt)) ?_
      rintro r s₂ (⟨-, rfl, rfl⟩ | ⟨taken, -, -⟩)
      · exact .ret claimed
      · exact absurd free taken
    · refine Ends.then (scanAcquire_ends empty (orderly.counter ▸ Nat.mod_lt _ (by decide))) ?_
      rintro r s₂ (⟨count, rfl, rfl, -⟩ | ⟨count, -, found⟩)
      · refine Ends.then ((orderly.advance count).tryDrain_ends fun _ => trivial) ?_
        rintro - s₃ orderly'
        exact ih orderly'
      · obtain ⟨i, rfl, claimed⟩ := (orderly.advance (count + 1)).found empty full (nodup_bucket layout _)
          (fun i mem => mem_bucket mem) found
        exact .ret claimed

end Orderly

omit [DecidableEq τ] in
theorem freezeRows_freelist (s : State n τ) (start : ℕ) (rows : List (List UInt8)) :
    (s.freezeRows start rows).recycled = s.recycled ∧ (s.freezeRows start rows).next = s.next ∧
      (s.freezeRows start rows).scanBucket = s.scanBucket := by
  induction rows generalizing s start with
  | nil => exact ⟨rfl, rfl, rfl⟩
  | cons row rest ih => exact ih (s.freezeRow start row) (start + 1)

omit [DecidableEq τ] in
theorem orderly_new {config : Config} {init : Rows} {start : State n τ}
    (created : new n τ config init = .ok (layout, start)) :
    Orderly layout [] [] (plain (start, 0)) := by
  obtain ⟨unfrozen, total, same⟩ := new_eq_ok created
  obtain ⟨registry, -⟩ := freezeRows_rest (empty n τ config.bytes) config.entries init.rows
  obtain ⟨recycled, next, scanBucket⟩ :=
    freezeRows_freelist (empty n τ config.bytes) config.entries init.rows
  have tags := freezeRows_tags (empty n τ config.bytes) config.entries init.rows
  rw [← same] at registry recycled next scanBucket tags
  have queues : ∀ q, (plain (start, 0)).registry.retiring q = [] := by
    intro q
    simp only [plain, registry]
    rfl
  have none : (plain (start, 0)).recycled = [] := recycled
  have tag : ∀ i, start.tags i =
      if config.entries ≤ i ∧ i < config.entries + init.rows.length then .frozen else .available :=
    fun i => (tags i).1
  have plain : (plain (start, 0)).registry = (Registry.withCapacity n).plain :=
    congrArg Registry.plain registry
  refine ⟨⟨fun q i mem => ?_, fun q => ?_, fun q q' i mem => ?_, fun i below held => ?_, ?_,
    fun i mem => ?_, ?_, fun i _ below => ⟨?_, ?_⟩, fun i above below => ?_,
    forall_mem_nil _, nodup_nil⟩, ?_, ?_, fun slot taken => ?_, ?_⟩
  · rw [queues] at mem
    cases mem
  · rw [queues]
    exact nodup_nil
  · rw [queues] at mem
    cases mem
  · have shape := (tag i).symm.trans held
    split_ifs at shape
  · rw [none]
    exact nodup_nil
  · rw [none] at mem
    cases mem
  · exact next.trans_le (Nat.zero_le _)
  · exact (tag i).trans (if_neg (by omega))
  · rw [none]
    exact not_mem_nil
  · exact (tag i).trans (if_pos (by omega))
  · rw [plain]
    rfl
  · rw [plain]
    exact (by decide : 1 < wordSize)
  · rw [plain] at taken
    exact absurd rfl taken
  · exact scanBucket

/-- The store is orderly after every history of calls. -/
theorem History.orderly [NeZero n] {config : Config} {init : Rows} {start : State n τ}
    (created : new n τ config init = .ok (layout, start)) {s : State n τ × ℕ} {slots : List ℕ}
    {readers : List (Fin n)} (history : History layout start s slots readers) :
    Orderly layout slots readers (plain s) := by
  induction history with
  | start => exact orderly_new created
  | acquire before run ih =>
    exact (plain_simulates layout).of_runs (ih.acquireWithin_ends retryLimit) run
  | publish before held run ih =>
    rw [(plain_simulates layout).of_runs (publish_ends _) run]
    exact { ih with settled := ih.settled.giveBack held (by decide) }
  | drop before held run ih =>
    rw [(plain_simulates layout).of_runs (drop_ends _) run]
    exact { ih with settled := ih.settled.giveBack held (by decide) }
  | retire before run ih =>
    rcases (plain_simulates layout).of_runs (retire_ends _) run with
      ⟨hint, same⟩ | ⟨hint, below, published, same⟩
    · rw [same]
      exact { ih with settled := { ih.settled with } }
    · rw [same]
      exact { ih with settled := ih.settled.retire below published _ hint }
  | openReader before run ih =>
    obtain ⟨⟨hint, ⟨error, wrong, -⟩ | ⟨slot, free, same, next⟩⟩, frame⟩ :=
      (plain_simulates layout).of_runs reader_ends run
    · cases wrong
    · cases same
      rw [frame, next]
      refine { ih with settled := { ih.settled with }, guarded := fun other taken => ?_ }
      by_cases here : other = slot
      · exact here ▸ mem_cons_self
      · refine mem_cons_of_mem _ (ih.guarded other ?_)
        exact (update_of_ne here _ (plain _).registry.guards).symm ▸ taken
  | refuseReader before run ih =>
    obtain ⟨⟨hint, ⟨error, -, same⟩ | ⟨slot, free, wrong, -⟩⟩, frame⟩ :=
      (plain_simulates layout).of_runs reader_ends run
    · rw [frame, same]
      exact { ih with settled := { ih.settled with } }
    · cases wrong
  | @closeReader _ _ _ _ _ slot before held run ih =>
    rw [(plain_simulates layout).of_runs (dropGuard_ends slot) run]
    refine { ih with settled := { ih.settled with }, guarded := fun other taken => ?_ }
    have here : other ≠ slot := by
      rintro rfl
      exact taken (update_self _ _ _)
    refine (mem_erase_of_ne here).mpr (ih.guarded other ?_)
    exact fun free => taken ((update_of_ne here _ _).trans free)
  | tryDrain before run ih =>
    exact (plain_simulates layout).of_runs (ih.tryDrain_ends fun _ => trivial) run

end DiskAnn.Inmem.Store
