import DiskAnn.Inmem.StoreHistory

/-! # When `acquire` finds a slot

After any history of calls, and with no reader left to hold back the epoch, an attempt that finds
nothing drains one of the four queues, so that a retired slot comes back after four of them. If none
is retired, the attempts scan one bucket after the other, and all twenty of them together every slot,
as long as the counter of the buckets does not wrap in between.
-/

namespace DiskAnn.Inmem.Store

open Machine Prog List Function Nat Epoch Plain Layout Finset

variable {n : ℕ} {τ : Type} [DecidableEq τ] {layout : Layout}

/-! ## The buckets of a scan -/

omit [DecidableEq τ] in
theorem mem_bucket_iff {count i : ℕ} (below : i < layout.unfrozen)
    (index : count % layout.buckets = i / scanSize) : i ∈ layout.bucket count := by
  rw [bucket, mem_range'_1, index]
  unfold scanSize
  omega

theorem length_bucket (layout : Layout) {b : ℕ} (below : b < layout.buckets) :
    (layout.bucket b).length = min ((b + 1) * scanSize) layout.unfrozen - min (b * scanSize) layout.unfrozen := by
  rw [bucket, length_range', mod_eq_of_lt below]
  unfold scanSize at *
  omega

/-- All buckets together have as many ids as there are slots. -/
theorem sum_length_bucket (layout : Layout) :
    ∑ b ∈ range layout.buckets, (layout.bucket b).length = layout.unfrozen := by
  have telescope : ∀ m ≤ layout.buckets, ∑ b ∈ range m, (layout.bucket b).length =
      min (m * scanSize) layout.unfrozen := by
    intro m most
    induction m with
    | zero => simp
    | succ m ih =>
      rw [Finset.sum_range_succ, ih (le_of_succ_le most), length_bucket layout most]
      unfold scanSize
      omega
  rw [telescope _ le_rfl]
  unfold buckets scanSize
  omega

theorem bucket_mod (layout : Layout) (count : ℕ) :
    layout.bucket (count % layout.buckets) = layout.bucket count := by
  unfold bucket
  rw [mod_mod]

theorem exists_add_mod_eq {m index : ℕ} (below : index < m) (start : ℕ) :
    ∃ j < m, (start + j) % m = index := by
  have rest := mod_lt start (zero_lt_of_lt below)
  refine ⟨(index + m - start % m) % m, mod_lt _ (zero_lt_of_lt below), ?_⟩
  have shape : start + (index + m - start % m) = index + m + m * (start / m) := by
    have := mod_add_div start m
    omega
  rw [add_mod_mod, shape, add_mul_mod_self_left, add_mod_right, mod_eq_of_lt below]

theorem add_mod_injOn (start m : ℕ) : Set.InjOn (fun j => (start + j) % m) (range m) := by
  intro j first j' second same
  have first := Finset.mem_range.mp (Finset.mem_coe.mp first)
  have second := Finset.mem_range.mp (Finset.mem_coe.mp second)
  have congruent : j % m = j' % m := ModEq.add_left_cancel' start same
  rwa [mod_eq_of_lt first, mod_eq_of_lt second] at congruent

/-- Buckets handed out one after the other come to every slot, once they have as many ids as there
are slots, if the counter does not wrap. -/
theorem exists_mem_bucket {start count i : ℕ} (below : i < layout.unfrozen)
    (noWrap : start + layout.buckets ≤ 2 ^ 32)
    (enough : layout.unfrozen ≤
      ∑ j ∈ range count, (layout.bucket ((start + j) % 2 ^ 32)).length) :
    ∃ j < count, i ∈ layout.bucket ((start + j) % 2 ^ 32) := by
  have index : i / scanSize < layout.buckets := by
    unfold buckets scanSize
    omega
  by_contra missed
  push Not at missed
  have apart : ∀ j < count, j < layout.buckets → (start + j) % layout.buckets ≠ i / scanSize := by
    intro j handed bound same
    refine missed j handed (mem_bucket_iff below ?_)
    rw [mod_eq_of_lt (by omega : start + j < 2 ^ 32), same]
  -- one bucket after the other, the one of the slot is among as many as there are
  have few : count ≤ layout.buckets := by
    by_contra many
    obtain ⟨j, bound, same⟩ := exists_add_mod_eq index start
    exact apart j (by omega) bound same
  -- and fewer of them leave out its ids
  have sum : ∑ j ∈ range count, (layout.bucket ((start + j) % 2 ^ 32)).length =
      ∑ b ∈ (Finset.range count).image (fun j => (start + j) % layout.buckets),
        (layout.bucket b).length := by
    rw [sum_image ((add_mod_injOn start layout.buckets).mono
      (coe_subset.mpr (range_mono few)))]
    refine sum_congr rfl fun j mem => ?_
    have handed := Finset.mem_range.mp mem
    rw [mod_eq_of_lt (by omega : start + j < 2 ^ 32), bucket_mod]
  have others : (Finset.range count).image (fun j => (start + j) % layout.buckets) ⊆
      (Finset.range layout.buckets).erase (i / scanSize) := by
    intro b mem
    obtain ⟨j, handed, rfl⟩ := mem_image.mp mem
    have handed := Finset.mem_range.mp handed
    exact mem_erase.mpr ⟨apart j handed (handed.trans_le few),
      Finset.mem_range.mpr (mod_lt _ (zero_lt_of_lt index))⟩
  have most := sum_le_sum_of_subset others (f := fun b => (layout.bucket b).length)
  have whole := add_sum_erase (range layout.buckets)
    (fun b => (layout.bucket b).length) (Finset.mem_range.mpr index)
  have some := length_bucket_pos (by omega : layout.unfrozen ≠ 0) (i / scanSize)
  rw [sum_length_bucket] at whole
  omega

/-! ## Attempts -/

section Attempts

variable {slots : List ℕ} {s : Plain n}

/-- What a call of `acquire` returns if it succeeds. -/
def Succeeds (r : Option Slot) (_ : Plain n) : Prop := ∃ slot, r = some slot

/-- An attempt succeeds, or it goes on after a scan in vain. -/
theorem attempt_ends {readers : List (Fin n)} {mayPanic : Prop} {attempts : ℕ}
    (orderly : Orderly layout slots readers s)
    (vain : s.recycled = [] → ∀ count, Searched layout s count layout.quota →
      Ends (steps layout) mayPanic (tryDrain layout) (s.advance count) fun _ s' =>
        Ends (steps layout) mayPanic (acquireWithin layout attempts) s' Succeeds) :
    Ends (steps layout) mayPanic (acquireWithin layout (attempts + 1)) s Succeeds := by
  refine freelistPop_ends.then ?_
  rintro r s₁ (⟨i, rest, recycled, rfl, rfl⟩ | ⟨empty, room, rfl, rfl⟩ | ⟨empty, full, rfl, rfl⟩)
  · obtain ⟨free, below, -⟩ := orderly.recycle recycled
    refine Ends.then (slot_ends (below.trans layout.unfrozen_lt)) ?_
    rintro r s₂ (⟨-, rfl, -⟩ | ⟨taken, -, -⟩)
    · exact .ret ⟨_, rfl⟩
    · exact absurd free taken
  · obtain ⟨free, -⟩ := orderly.mint empty room
    refine Ends.then (slot_ends (room.trans layout.unfrozen_lt)) ?_
    rintro r s₂ (⟨-, rfl, -⟩ | ⟨taken, -, -⟩)
    · exact .ret ⟨_, rfl⟩
    · exact absurd free taken
  · refine Ends.then (scanAcquire_ends empty (orderly.counter ▸ mod_lt _ (by decide))) ?_
    rintro r s₂ (⟨count, rfl, rfl, searched, -⟩ | ⟨count, -, i, extra, -, -, rfl, -⟩)
    · exact (vain empty count searched).bind
    · exact .ret ⟨_, rfl⟩

/-- With no reader, an attempt to drain goes on to the next epoch. -/
theorem drain_ends {mayPanic : Prop} {Q : Option ℕ → Plain n → Prop} (orderly : Orderly layout slots [] s)
    (room : s.registry.epoch + 1 < wordSize)
    (next : ∀ r extra, Drained layout s (s.registry.retiring (lastQueue s.registry.epoch)) extra →
      Orderly layout slots [] (s.nextEpoch extra) → Q r (s.nextEpoch extra)) :
    Ends (steps layout) mayPanic (tryDrain layout) s Q := by
  refine (Store.tryDrain_ends orderly.unlocked orderly.bounded (fun last => ?_) (fun i mem => ?_)
    (orderly.settled.nodup _)).mono fun r s' drained => ?_
  · unfold wordSize at *
    omega
  · obtain ⟨below, held⟩ := orderly.settled.queued _ i mem
    exact ⟨below.trans layout.unfrozen_lt, held⟩
  · obtain ⟨-, slot, taken⟩ | ⟨room, extra, drained, rfl⟩ := drained
    · cases orderly.guarded slot taken
    · exact next r extra drained (orderly.nextEpoch room drained)

/-- An id that waits for recycling is found at once. -/
theorem acquireWithin_of_recycled {mayPanic : Prop} {readers : List (Fin n)} {attempts : ℕ}
    (orderly : Orderly layout slots readers s) (some : s.recycled ≠ []) :
    Ends (steps layout) mayPanic (acquireWithin layout (attempts + 1)) s Succeeds :=
  attempt_ends orderly fun empty => absurd empty some

theorem retiring_nextEpoch (s : Plain n) (extra : List ℕ) :
    (s.nextEpoch extra).registry.retiring =
      update s.registry.retiring (lastQueue s.registry.epoch) [] := rfl

theorem epoch_nextEpoch (s : Plain n) (extra : List ℕ) :
    (s.nextEpoch extra).registry.epoch = s.registry.epoch + 1 := rfl

theorem registry_advance (s : Plain n) (count : ℕ) : (s.advance count).registry = s.registry := rfl

theorem tags_nextEpoch (s : Plain n) (extra : List ℕ)
    (empty : s.registry.retiring (lastQueue s.registry.epoch) = []) :
    (s.nextEpoch extra).tags = s.tags := by
  funext i
  change (if i ∈ s.registry.retiring (lastQueue s.registry.epoch) then _ else s.tags i) = _
  rw [empty, if_neg not_mem_nil]

/-- A queue that is drained leaves an id for recycling. -/
theorem recycled_nextEpoch {count : ℕ} {extra : List ℕ} (capacity : 0 < layout.recycleCapacity)
    (orderly : Orderly layout slots [] s) (empty : s.recycled = [])
    (some : s.registry.retiring (lastQueue s.registry.epoch) ≠ [])
    (drained : Drained layout (s.advance count)
      (s.registry.retiring (lastQueue s.registry.epoch)) extra) :
    ((s.advance count).nextEpoch extra).recycled ≠ [] := by
  have room : (s.advance count).recycled.length < layout.recycleCapacity := by
    change s.recycled.length < _
    rw [empty]
    exact capacity
  have filled := drained.some some (fun i mem => (orderly.settled.queued _ i mem).1) room
  exact fun none => filled (append_eq_nil_iff.mp none).2

/-- A retired slot is found after the attempt that drains its queue. -/
theorem acquireWithin_of_retiring {i : ℕ} (capacity : 0 < layout.recycleCapacity) (wait : ℕ) {s : Plain n}
    {attempts : ℕ} (orderly : Orderly layout slots [] s)
    (queued : i ∈ s.registry.retiring (lastQueue (s.registry.epoch + wait)))
    (room : s.registry.epoch + wait + 1 < wordSize) (enough : wait + 2 ≤ attempts) :
    Ends (steps layout) False (acquireWithin layout attempts) s Succeeds := by
  induction wait generalizing s attempts with
  | zero =>
    obtain ⟨attempts, rfl⟩ : ∃ rest, attempts = rest + 1 + 1 := ⟨attempts - 2, by omega⟩
    refine attempt_ends orderly fun empty count _ => drain_ends (orderly.advance count) room ?_
    intro r extra drained orderly'
    exact acquireWithin_of_recycled orderly'
      (recycled_nextEpoch capacity orderly empty (ne_nil_of_mem queued) drained)
  | succ wait ih =>
    obtain ⟨attempts, rfl⟩ : ∃ rest, attempts = rest + 1 + 1 := ⟨attempts - 2, by omega⟩
    refine attempt_ends orderly fun empty count _ => drain_ends (orderly.advance count) ?_ ?_
    · change s.registry.epoch + 1 < _
      omega
    intro r extra drained orderly'
    by_cases none : s.registry.retiring (lastQueue s.registry.epoch) = []
    · have later : s.registry.epoch + (wait + 1) = s.registry.epoch + 1 + wait := by omega
      rw [later] at queued room
      refine ih orderly' ?_ room (by omega)
      rw [retiring_nextEpoch, Settled.mem_update_iff]
      refine .inr ⟨fun same => ?_, queued⟩
      rw [epoch_nextEpoch, registry_advance] at same
      rw [same] at queued
      exact absurd none (ne_nil_of_mem queued)
    · exact acquireWithin_of_recycled orderly'
        (recycled_nextEpoch capacity orderly empty none drained)

theorem exists_lastQueue (epoch : ℕ) (q : Fin 4) : ∃ wait < 4, lastQueue (epoch + wait) = q := by
  refine ⟨(q.val + 4 - (epoch + 2) % 4) % 4, mod_lt _ (by decide), ?_⟩
  refine Fin.ext ?_
  change (epoch + (q.val + 4 - (epoch + 2) % 4) % 4 + wordSize - 2) % wordSize % 4 = q.val
  unfold wordSize
  omega

theorem Searched.append {base : Plain n} {count quota further quota' : ℕ}
    (searched : Searched layout base count quota) (tags : s.tags = base.tags)
    (pos : s.scanBucket = (base.scanBucket + count) % 2 ^ 32)
    (next : Searched layout s further quota') :
    Searched layout base (count + further) (quota + quota') := by
  have shift : ∀ j, (s.scanBucket + j) % 2 ^ 32 = (base.scanBucket + (count + j)) % 2 ^ 32 := by
    intro j
    rw [pos, Nat.mod_add_mod, Nat.add_assoc]
  refine ⟨fun j bound => ?_, ?_⟩
  · by_cases first : j < count
    · exact searched.taken j first
    · have taken := next.taken (j - count) (by omega)
      rw [shift, tags, Nat.add_sub_cancel' (not_lt.mp first)] at taken
      exact taken
  · rw [ahead, sum_range_add]
    refine Nat.add_le_add searched.quota (next.quota.trans (Finset.sum_le_sum fun j _ => ?_))
    rw [shift]

/-- A slot that is available is found in one of the attempts, if no slot is retired. -/
theorem acquireWithin_of_available {base : Plain n} {i : ℕ} (below : i < layout.unfrozen)
    (free : base.tags i = .available) (noWrap : base.scanBucket + layout.buckets ≤ 2 ^ 32)
    (attempts done count : ℕ) {s : Plain n} (orderly : Orderly layout slots [] s)
    (quiet : ∀ q, s.registry.retiring q = []) (tags : s.tags = base.tags)
    (pos : s.scanBucket = (base.scanBucket + count) % 2 ^ 32)
    (searched : Searched layout base count (done * layout.quota)) (all : done + attempts = retryLimit)
    (room : s.registry.epoch + attempts < wordSize) :
    Ends (steps layout) False (acquireWithin layout attempts) s Succeeds := by
  induction attempts generalizing s done count with
  | zero =>
    have enough : layout.unfrozen ≤ done * layout.quota := by
      rw [add_zero] at all
      rw [all]
      unfold quota retryLimit
      omega
    obtain ⟨j, handed, mem⟩ := exists_mem_bucket below noWrap (enough.trans searched.quota)
    exact absurd free (searched.taken j handed i mem)
  | succ attempts ih =>
    refine attempt_ends orderly fun _ further searched' => drain_ends (orderly.advance further) ?_ ?_
    · change s.registry.epoch + 1 < _
      omega
    intro r extra drained orderly'
    refine ih (done + 1) (count + further) orderly' (fun q => ?_) ?_ ?_
      (succ_mul done _ ▸ searched.append tags pos searched') (by omega) ?_
    · rw [retiring_nextEpoch, update_apply]
      split_ifs
      · rfl
      · exact quiet q
    · exact (tags_nextEpoch _ extra (quiet _)).trans tags
    · change (s.scanBucket + further) % 2 ^ 32 = _
      rw [pos, mod_add_mod, add_assoc]
    · change s.registry.epoch + 1 + attempts < _
      omega

end Attempts

/-- After a history that leaves no reader, a slot that is available or retired is found, if neither
the counter of the buckets nor the epoch comes to its end. -/
theorem acquire_finds_slot [NeZero n] (config : Config) (init : Rows) {start : State n τ}
    (created : new n τ config init = .ok (layout, start)) (capacity : 0 < layout.recycleCapacity)
    {s : State n τ} {handed : ℕ} {slots : List ℕ} (history : History layout start (s, handed) slots [])
    {i : ℕ} (below : i < layout.unfrozen) (unused : s.tags i = .available ∨ s.tags i = .retiring)
    (buckets : handed + layout.buckets ≤ 2 ^ 32)
    (epochs : s.registry.epoch + retryLimit < Epoch.wordSize) (task : τ) :
    ∃ slot s', (acquire layout).Runs (countingExec layout) task (s, handed) (some slot) s' := by
  have orderly := history.orderly created
  have ends : Ends (Plain.steps layout) False (acquire layout) (State.plain (s, handed)) Succeeds := by
    by_cases quiet : ∀ q, (State.plain (s, handed)).registry.retiring q = []
    · have free : s.tags i = .available := by
        refine unused.resolve_right fun retiring => ?_
        obtain ⟨q, member⟩ := orderly.settled.retiring i (below.trans layout.unfrozen_lt) retiring
        rw [quiet] at member
        cases member
      have least : (State.plain (s, handed)).scanBucket ≤ handed := by
        rw [orderly.counter]
        exact Nat.mod_le _ _
      refine acquireWithin_of_available below free (by omega) retryLimit 0 0 orderly quiet rfl ?_
        ⟨fun j bound => absurd bound (Nat.not_lt_zero j), ?_⟩ (Nat.zero_add _)
        epochs
      · rw [Nat.add_zero, orderly.counter, Nat.mod_mod]
      · rw [Nat.zero_mul]
        exact Nat.zero_le _
    · push Not at quiet
      obtain ⟨q, some⟩ := quiet
      obtain ⟨j, queued⟩ := exists_mem_of_ne_nil _ some
      obtain ⟨wait, bound, rfl⟩ := exists_lastQueue s.registry.epoch q
      refine acquireWithin_of_retiring capacity wait orderly queued ?_ ?_
      · change s.registry.epoch + wait + 1 < _
        unfold retryLimit at epochs
        omega
      · unfold retryLimit
        omega
  obtain ⟨-, s', run, slot, rfl⟩ := (plain_simulates layout).runs task ends not_false
  exact ⟨slot, s', run⟩

/-- A new store with one slot. -/
theorem acquire_finds_slot_new :
    new 1 Unit ⟨1, 1, 1, 1⟩ ⟨1, [[5]]⟩ =
      .ok (⟨1, 2, 1, by decide, by decide⟩, (State.empty 1 Unit 1).freezeRows 1 [[5]]) ∧
    ∃ slot s', (acquire ⟨1, 2, 1, by decide, by decide⟩).Runs
      (countingExec ⟨1, 2, 1, by decide, by decide⟩) ()
      ((State.empty 1 Unit 1).freezeRows 1 [[5]], 0) (some slot) s' :=
  ⟨rfl, acquire_finds_slot ⟨1, 1, 1, 1⟩ ⟨1, [[5]]⟩ rfl (by decide) .start (by decide : 0 < 1) (.inl rfl) (by decide)
    (by decide) ()⟩

/-! ## A slot that is missed

With 5120 slots each attempt scans one of the twenty buckets, and the counter of the buckets wraps at
a number that twenty does not divide. -/

section Missed

/-- 5120 slots and a frozen one, and room for one id to be recycled. -/
def missedLayout : Layout := ⟨5120, 5121, 1, by decide, by decide⟩

theorem length_missedLayout_bucket (count : ℕ) : (missedLayout.bucket count).length = 256 := by
  have index := count.mod_lt (by decide : 0 < missedLayout.buckets)
  rw [← bucket_mod, length_bucket missedLayout index]
  have buckets : missedLayout.buckets = 20 := rfl
  have unfrozen : missedLayout.unfrozen = 5120 := rfl
  unfold scanSize
  omega

theorem ahead_missedLayout (s : Plain n) (count : ℕ) : s.ahead missedLayout count = 256 * count := by
  simp [ahead, length_missedLayout_bucket, mul_comm]

/-- Nothing is retired or waits for recycling, and everything minted is in use. -/
structure Full (s : Plain n) (next handed epoch : ℕ) : Prop where
  empty : s.recycled = []
  minted : s.next = next
  quiet : ∀ q, s.registry.retiring q = []
  handed : s.handed = handed
  epoch : s.registry.epoch = epoch

theorem Full.nextEpoch {s : Plain n} {next handed epoch count : ℕ} {extra : List ℕ}
    (full : Full s next handed epoch) (drained : Drained missedLayout (s.advance count)
      (s.registry.retiring (lastQueue s.registry.epoch)) extra) :
    Full ((s.advance count).nextEpoch extra) next (handed + count) (epoch + 1) := by
  have none : extra = [] := by
    have sublist := drained.sublist
    rw [full.quiet] at sublist
    exact sublist_nil.mp sublist
  subst none
  refine ⟨?_, full.minted, fun q => ?_, congrArg (· + count) full.handed, congrArg (· + 1) full.epoch⟩
  · exact (append_nil _).trans full.empty
  · rw [retiring_nextEpoch, update_apply]
    split_ifs
    · rfl
    · exact full.quiet q

/-- Attempts that each scan one bucket in vain. -/
theorem acquireWithin_misses (attempts : ℕ) {handed epoch : ℕ} {slots : List ℕ} {s : Plain n}
    (orderly : Orderly missedLayout slots [] s) (full : Full s 5120 handed epoch)
    (vain : ∀ j < attempts, ∀ i ∈ missedLayout.bucket ((handed + j) % 2 ^ 32), s.tags i ≠ .available)
    (room : epoch + attempts < wordSize) :
    Ends (steps missedLayout) False (acquireWithin missedLayout attempts) s fun r s' =>
      r = none ∧ s'.tags = s.tags ∧ Full s' 5120 (handed + attempts) (epoch + attempts) := by
  induction attempts generalizing s handed epoch with
  | zero => exact .ret ⟨rfl, rfl, full⟩
  | succ attempts ih =>
    refine Ends.then freelistPop_ends ?_
    rintro r s₁ (⟨i, rest, recycled, -, -⟩ | ⟨-, less, -, -⟩ | ⟨-, -, rfl, same⟩)
    · cases full.empty.symm.trans recycled
    · rw [full.minted] at less
      exact absurd less (lt_irrefl _)
    rw [same]
    have pos : ∀ j, (s.scanBucket + j) % 2 ^ 32 = (handed + j) % 2 ^ 32 := by
      intro j
      rw [orderly.counter, full.handed, mod_add_mod]
    have quota : missedLayout.quota = 256 := rfl
    refine Ends.then (scanAcquire_ends full.empty (orderly.counter ▸ mod_lt _ (by decide))) ?_
    rintro r s₂ (⟨count, rfl, rfl, searched, short⟩ | ⟨count, short, i, extra, mem, free, -⟩)
    · have once : count = 1 := by
        have least := searched.quota
        have most := short 1
        rw [ahead_missedLayout] at least most
        omega
      subst once
      refine Ends.then (drain_ends (orderly.advance 1) ?_ (Q := fun _ s' => ∃ extra,
        s' = (s.advance 1).nextEpoch extra ∧ Orderly missedLayout slots [] s' ∧
        Drained missedLayout (s.advance 1)
          (s.registry.retiring (lastQueue s.registry.epoch)) extra) ?_) ?_
      · change s.registry.epoch + 1 < _
        rw [full.epoch]
        omega
      · exact fun r extra drained orderly' => ⟨extra, rfl, orderly', drained⟩
      rintro - s' ⟨extra, rfl, orderly', drained⟩
      have tags : ((s.advance 1).nextEpoch extra).tags = s.tags := tags_nextEpoch _ extra (full.quiet _)
      have next := full.nextEpoch drained
      refine (ih orderly' next (fun j bound => ?_) (by omega)).mono fun r s' ⟨missed, same, full'⟩ =>
        ⟨missed, same.trans tags, ?_⟩
      · rw [tags, add_assoc, add_comm 1 j]
        exact vain (j + 1) (succ_lt_succ bound)
      · rw [add_comm attempts 1, ← add_assoc, ← add_assoc]
        exact full'
    · have none : count = 0 := by
        rw [ahead_missedLayout] at short
        omega
      subst none
      rw [pos] at mem
      exact absurd free (vain 0 (succ_pos _) i mem)

theorem update_ne_of_ne {tags : ℕ → Tag} {i j : ℕ} {tag other : Tag} (new : tag ≠ other)
    (old : tags i ≠ other) : update tags j tag i ≠ other := by
  rw [update_apply]
  split_ifs
  · exact new
  · exact old

/-- A slot that has not been used before. -/
theorem acquireWithin_mints (attempts : ℕ) {slots : List ℕ} {readers : List (Fin n)} {s : Plain n}
    (orderly : Orderly layout slots readers s) (empty : s.recycled = [])
    (room : s.next < layout.unfrozen) :
    Ends (steps layout) False (acquireWithin layout (attempts + 1)) s fun r s' =>
      r = some ⟨s.next⟩ ∧ s' = ({ s with next := s.next + 1 } : Plain n).claim s.next := by
  refine freelistPop_ends.then ?_
  rintro r s₁ (⟨i, rest, recycled, -, -⟩ | ⟨-, -, rfl, rfl⟩ | ⟨-, full, -, -⟩)
  · cases empty.symm.trans recycled
  · refine Ends.then (slot_ends (room.trans layout.unfrozen_lt)) ?_
    rintro r s₂ (⟨-, rfl, rfl⟩ | ⟨taken, -, -⟩)
    · exact .ret ⟨rfl, rfl⟩
    · exact absurd (orderly.mint empty room).1 taken
  · exact absurd room full

def missedStart : State 1 Unit := (State.empty 1 Unit 1).freezeRows 5120 [[5]]

theorem missedStart_created :
    new 1 Unit ⟨5120, 1, 1, 1⟩ ⟨1, [[5]]⟩ = .ok (missedLayout, missedStart) := rfl

/-- The slots are acquired one by one and published, but for one that is kept in hand. -/
theorem history_mints (next : ℕ) (most : next ≤ 5120) : ∃ s : State 1 Unit × ℕ,
    History missedLayout missedStart s (if 4100 < next then [4100] else []) [] ∧
      Full (State.plain s) next 0 1 ∧ ∀ i < next, (State.plain s).tags i ≠ .available := by
  induction next with
  | zero => exact ⟨_, .start, ⟨rfl, rfl, fun _ => rfl, rfl, rfl⟩, fun i below => absurd below (not_lt_zero i)⟩
  | succ next ih =>
    obtain ⟨s, history, full, used⟩ := ih (le_of_succ_le most)
    have orderly := history.orderly missedStart_created
    obtain ⟨r, s₁, run, rfl, state⟩ := (plain_simulates missedLayout).runs ()
      (acquireWithin_mints 19 orderly full.empty (full.minted.trans_lt most)) not_false
    rw [full.minted] at run state
    have acquired := history.acquire run
    have full₁ : Full (State.plain s₁) (next + 1) 0 1 := by
      rw [state]
      exact ⟨full.empty, rfl, full.quiet, full.handed, full.epoch⟩
    have used₁ : ∀ i < next + 1, (State.plain s₁).tags i ≠ .available := by
      intro i below
      rw [state]
      by_cases same : i = next
      · rw [same, claim_tags_self]
        decide
      · rw [claim_tags_of_ne _ same]
        exact used i (by omega)
    by_cases kept : next = 4100
    · subst kept
      exact ⟨s₁, acquired, full₁, used₁⟩
    · obtain ⟨id, s₂, published, state₂⟩ := (plain_simulates missedLayout).runs ()
        (publish_ends ⟨next⟩) not_false
      have history₂ := acquired.publish mem_cons_self published
      have same : (if 4100 < next + 1 then [4100] else []) = if 4100 < next then [4100] else [] :=
        if_congr (by omega) rfl rfl
      rw [same]
      change History _ _ _ ((next :: _).erase next) _ at history₂
      rw [erase_cons_head] at history₂
      refine ⟨s₂, history₂, ?_, fun i below => ?_⟩
      · rw [state₂]
        exact ⟨full₁.empty, full₁.minted, full₁.quiet, full₁.handed, full₁.epoch⟩
      · rw [state₂]
        exact update_ne_of_ne (by decide) (used₁ i below)

/-- Further calls in vain hand out twenty buckets each. -/
theorem history_misses (calls : ℕ) (most : 20 * calls < 2 ^ 32) : ∃ s : State 1 Unit × ℕ,
    History missedLayout missedStart s [4100] [] ∧
      Full (State.plain s) 5120 (20 * calls) (1 + 20 * calls) ∧
      ∀ i < 5120, (State.plain s).tags i ≠ .available := by
  induction calls with
  | zero =>
    obtain ⟨s, history, full, used⟩ := history_mints 5120 le_rfl
    exact ⟨s, history, full, used⟩
  | succ calls ih =>
    obtain ⟨s, history, full, used⟩ := ih (by omega)
    have orderly := history.orderly missedStart_created
    have room : 1 + 20 * calls + 20 < wordSize := by
      unfold wordSize
      omega
    obtain ⟨r, s₁, run, rfl, tags, full₁⟩ := (plain_simulates missedLayout).runs ()
      (acquireWithin_misses 20 orderly full (fun _ _ i mem => used i (mem_bucket mem)) room)
      not_false
    refine ⟨s₁, history.acquire run, full₁, fun i below => ?_⟩
    rw [tags]
    exact used i below

/-- Before the counter wraps, the first sixteen buckets are scanned; after it, the first four again. -/
theorem not_mem_bucket_of_wraps {j : ℕ} (bound : j < 20) :
    4100 ∉ missedLayout.bucket ((4294967280 + j) % 2 ^ 32) := by
  have early : (4294967280 + j) % 2 ^ 32 % 20 < 16 := by interval_cases j <;> decide
  rw [bucket, mem_range'_1]
  have buckets : missedLayout.buckets = 20 := rfl
  rw [buckets]
  unfold scanSize
  omega

/-- Fewer than `2 ^ 32` buckets have been handed out, no slot and no reader is live, and a slot is
available, but the next call does not find it. -/
theorem acquire_misses_slot : ∃ (s s' : State 1 Unit) (handed handed' : ℕ),
    new 1 Unit ⟨5120, 1, 1, 1⟩ ⟨1, [[5]]⟩ = .ok (missedLayout, missedStart) ∧
    History missedLayout missedStart (s, handed) [] [] ∧ handed < 2 ^ 32 ∧
    4100 < missedLayout.unfrozen ∧ s.tags 4100 = .available ∧
    (acquire missedLayout).Runs (countingExec missedLayout) () (s, handed) none (s', handed') := by
  obtain ⟨s, history, full, used⟩ := history_misses 214748364 (by decide)
  obtain ⟨value, s₁, dropped, state⟩ := (plain_simulates missedLayout).runs ()
    (drop_ends ⟨4100⟩) not_false
  have history₁ := history.drop mem_cons_self dropped
  have orderly := history₁.orderly missedStart_created
  have full₁ : Full (State.plain s₁) 5120 4294967280 4294967281 := by
    rw [state]
    exact ⟨full.empty, full.minted, full.quiet, full.handed, full.epoch⟩
  have tags : (State.plain s₁).tags = update (State.plain s).tags 4100 .available := by
    rw [state]
  have vain : ∀ j < 20, ∀ i ∈ missedLayout.bucket ((4294967280 + j) % 2 ^ 32),
      (State.plain s₁).tags i ≠ .available := by
    intro j bound i member
    have different : i ≠ 4100 := by
      rintro rfl
      exact not_mem_bucket_of_wraps bound member
    rw [tags, update_of_ne different]
    exact used i (mem_bucket member)
  obtain ⟨r, s₂, run, rfl, -⟩ := (plain_simulates missedLayout).runs ()
    (acquireWithin_misses 20 orderly full₁ vain (by decide)) not_false
  refine ⟨s₁.1, s₂.1, s₁.2, s₂.2, rfl, history₁, ?_, by decide, ?_, run⟩
  · exact full₁.handed.trans_lt (by decide)
  · exact (congrFun tags 4100).trans (update_self _ _ _)

end Missed

end DiskAnn.Inmem.Store
