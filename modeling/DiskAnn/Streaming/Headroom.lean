import DiskAnn.Streaming.TagSlots

/-! # Headroom of a managed stream

The capacity of the stream leaves room for slots whose reclaim is deferred: the executor of a runbook
asks before each stage whether too many slots are deleted, and only then maintains the stream. The
threshold and the products with it are exact rationals.
-/

namespace DiskAnn.Streaming

open List Validate Fallible

/-- `needs_maintenance` with deferred reclaim; `num_active` counts the deleted slots too. -/
def Managed.needsMaintenance (bookKeeping : TagSlotManager) (threshold : ℚ) : Bool :=
  let numActive := bookKeeping.capacity - bookKeeping.emptySlots.length
  ⌊numActive * threshold⌋₊ < bookKeeping.deletedSlots.card

namespace Session

/-- The session that a stage finds, after the check for maintenance in front of it. -/
def maintained (threshold : ℚ) (s : Session) (order : DrainOrder) : Session :=
  if Managed.needsMaintenance s.bookKeeping threshold then
    { s with bookKeeping := Managed.maintain s.bookKeeping order }
  else s

/-- One round of the executor's loop over the stages. -/
def round (threshold : ℚ) (s : Session) (entry : DrainOrder × Stage) : Except String Session :=
  (s.maintained threshold entry.1).step (.stage entry.2)

end Session

/-- The capacity that `full_precision_streaming` gives to the stream. -/
def streamCapacity (maxPoints : ℕ) (threshold : ℚ) : ℕ := ⌈maxPoints * (1 + 2 * threshold)⌉₊

/-- Each slot is free, deleted or of an active tag, apart from the frozen one, and no deleted slot has an
active tag. The tags of all slots are among the ones inserted so far. -/
structure Headroom (capacity : ℕ) (past : List ℕ) (v : Validate) (s : Session) : Prop where
  tracks : Tracks v s
  whole : s.bookKeeping.capacity = capacity
  slots : s.bookKeeping.emptySlots.length + s.bookKeeping.deletedSlots.card + v.currentlyActive + 1 = capacity
  seen : ∀ slot tag, s.bookKeeping.slotToTag slot = some tag → tag ∈ past
  gone : ∀ slot ∈ s.bookKeeping.deletedSlots, ∀ tag, s.bookKeeping.slotToTag slot = some tag →
    s.latest tag = none

namespace Headroom

variable {capacity : ℕ} {past : List ℕ} {v v' : Validate} {s s' : Session} {tags : SimpleRange}

theorem start (started : Session.start capacity = some s) (fits : capacity ≤ 2 ^ 32) :
    Headroom capacity [] .new s := by
  have tracks := Tracks.start started fits
  obtain ⟨pos, rfl⟩ := start_eq_some started
  refine ⟨tracks, rfl, ?_, fun _ _ held => (nomatch held), fun _ mem => nomatch mem⟩
  simp only [length_range, Finset.card_empty, new]
  omega

variable (headroom : Headroom capacity past v s)
include headroom

theorem insert (ok : v.insert tags = pure v')
    (ran : s.step (.stage (.insert tags)) = pure s') (fresh : past.Disjoint tags.toList) :
    Headroom capacity (past ++ tags.toList) v' s' := by
  have tracks := headroom.tracks.insert ok ran
  obtain ⟨-, -, -, current, -⟩ := insert_spec headroom.tracks.wellFormed ok
  obtain ⟨⟨slots, m'⟩, inserted, ran⟩ := except_bind_eq_ok.mp ran
  obtain ⟨length, rfl, rfl⟩ := insert_eq_pure inserted
  cases ran
  obtain ⟨tagToSlot, slotToTag, same, older⟩ := foldl_assign_eq (tags.toList.zip
    (s.bookKeeping.emptySlots.take tags.toList.length)) { s.bookKeeping with
      emptySlots := s.bookKeeping.emptySlots.drop tags.toList.length }
  simp only [same] at tracks ⊢
  refine ⟨tracks, headroom.whole, ?_, fun slot tag held => ?_, fun slot deleted tag held => ?_⟩
  · have slots := headroom.slots
    simp only [length_drop]
    omega
  · rcases older slot tag held with mem | old
    · exact mem_append_right _ (of_mem_zip mem).1
    · exact mem_append_left _ (headroom.seen slot tag old)
  · rcases older slot tag held with mem | old
    · exact absurd deleted (headroom.tracks.books.idle slot (mem_of_mem_take (of_mem_zip mem).2))
    · by_contra active
      rcases (foldl_recordInsert_ne_none _ _ tag).mp active with mem | active
      · obtain ⟨entry, inside, rfl⟩ := mem_map.mp mem
        exact fresh (headroom.seen slot _ old) (of_mem_zip inside).1
      · exact active (headroom.gone slot deleted tag old)

theorem delete (ok : v.delete tags = pure v')
    (ran : s.step (.stage (.delete tags)) = pure s') : Headroom capacity past v' s' := by
  have tracks := headroom.tracks.delete ok ran
  obtain ⟨-, -, -, current, -⟩ := delete_spec headroom.tracks.wellFormed ok
  obtain ⟨deletedSlots, rfl, card, books⟩ := headroom.tracks.delete_eq ok ran
  refine ⟨tracks, headroom.whole, ?_, headroom.seen, fun slot deleted tag held => ?_⟩
  · have slots := headroom.slots
    simp only [card]
    omega
  · by_contra active
    rcases headroom.tracks.books.tagged slot tag held with own | old
    · obtain ⟨other, active⟩ := Option.ne_none_iff_exists'.mp active
      have same := (books.tagToSlot tag other active).symm.trans (headroom.tracks.books.tagToSlot tag slot own)
      exact (books.active tag other active).1 (Option.some.inj same ▸ deleted)
    · exact ((foldl_recordDelete_ne_none _ _ tag).mp active).1 (headroom.gone slot old tag held)

theorem stage {stage : Stage} (ok : v.stage stage = pure v')
    (ran : s.step (.stage stage) = pure s') (fresh : past.Disjoint stage.inserted) :
    Headroom capacity (past ++ stage.inserted) v' s' := by
  obtain ⟨tags, rfl⟩ | ⟨tags, rfl⟩ | ⟨none, rfl, rfl⟩ := Tracks.stage_cases ok ran
  · exact headroom.insert ok ran fresh
  · exact (append_nil past).symm ▸ headroom.delete ok ran
  · rw [none, append_nil]
    exact headroom

omit headroom in
theorem foldl_reclaim_spec (pending : List ℕ) (m : TagSlotManager) :
    (pending.foldl .reclaim m).emptySlots.length = m.emptySlots.length + pending.length ∧
      (pending.foldl .reclaim m).deletedSlots = m.deletedSlots ∧
      (pending.foldl .reclaim m).capacity = m.capacity ∧
      ∀ slot tag, (pending.foldl .reclaim m).slotToTag slot = some tag → m.slotToTag slot = some tag := by
  induction pending generalizing m with
  | nil => exact ⟨rfl, rfl, rfl, fun slot tag => id⟩
  | cons first pending ih =>
    obtain ⟨empty, deleted, capacity, held⟩ := ih (m.reclaim first)
    rw [Books.reclaim_emptySlots, length_append, length_singleton, add_assoc, Nat.add_comm 1] at empty
    exact ⟨empty, deleted.trans (Books.reclaim_deletedSlots m first),
      capacity.trans (Books.reclaim_capacity m first),
      fun slot tag old => (Books.reclaim_slotToTag.mp (held slot tag old)).2⟩

/-- A stage finds at most as many deleted slots as the threshold lets pass. -/
theorem maintained (threshold : ℚ) (order : DrainOrder) :
    Headroom capacity past v (s.maintained threshold order) ∧
      Managed.needsMaintenance (s.maintained threshold order).bookKeeping threshold = false := by
  unfold Session.maintained
  split_ifs with needs
  · obtain ⟨empty, deleted, whole, held⟩ := foldl_reclaim_spec
      (order.drain s.bookKeeping.deletedSlots) { s.bookKeeping with deletedSlots := ∅ }
    have slots := headroom.slots
    rw [← toFinset_card_of_nodup (order.nodup _), order.toFinset_drain] at empty
    refine ⟨⟨headroom.tracks.maintain (headroom.tracks.books.reclaimable_iff.mpr headroom.gone),
      whole.trans headroom.whole, ?_, fun slot tag old => headroom.seen slot tag (held slot tag old), ?_⟩, ?_⟩
    all_goals simp only [Managed.maintain, TagSlotManager.consolidate, Managed.needsMaintenance, deleted]
    · rw [empty, Finset.card_empty]
      omega
    · exact fun slot mem => nomatch mem
    · simp
  · exact ⟨headroom, Bool.eq_false_iff.mpr needs⟩

end Headroom

theorem Validate.maxActive_le {v v' : Validate} {stages : List Stage} (wellFormed : WellFormed v.active)
    (ok : stages.foldlM stage v = pure v') : v.maxActive ≤ v'.maxActive := by
  induction stages generalizing v with
  | nil =>
    obtain rfl := Except.ok.inj (Option.some.inj ok)
    exact le_rfl
  | cons stage stages ih =>
    rw [foldlM_cons, bind_eq_pure] at ok
    obtain ⟨v₁, first, later⟩ := ok
    cases stage with
    | search groundtruth =>
      obtain rfl := Except.ok.inj (Option.some.inj first)
      exact ih wellFormed later
    | replace offsets tags =>
      obtain ⟨rfl, -⟩ := replace_spec first
      exact ih wellFormed later
    | insert tags =>
      obtain ⟨wellFormed', -, -, -, most⟩ := insert_spec wellFormed first
      exact (most ▸ le_max_left _ _).trans (ih wellFormed' later)
    | delete tags =>
      obtain ⟨wellFormed', -, -, -, most⟩ := delete_spec wellFormed first
      exact most.ge.trans (ih wellFormed' later)

/-- An insertion that no round before it has kept from its slots. -/
theorem Headroom.suffices_of_room {capacity maxPoints : ℕ} {past : List ℕ} {v v' : Validate} {s s' : Session}
    {tags : SimpleRange} {threshold : ℚ} {done rest : List (DrainOrder × Stage)} {order : DrainOrder}
    (headroom : Headroom capacity past v s) (positive : 0 < threshold)
    (ok : ((done ++ (order, .insert tags) :: rest).map Prod.snd).foldlM Validate.stage v = pure v')
    (once : (past ++ (done ++ (order, .insert tags) :: rest).flatMap (·.2.inserted)).Nodup)
    (few : v'.maxActive ≤ maxPoints) (room : threshold * capacity + maxPoints < capacity)
    (ran : done.foldlM (Session.round threshold) s = pure s') :
    tags.toList.length ≤ (s'.maintained threshold order).bookKeeping.emptySlots.length := by
  induction done generalizing past v s with
  | nil =>
    cases ran
    rw [nil_append, map_cons, foldlM_cons, bind_eq_pure] at ok
    obtain ⟨v₁, inserted, later⟩ := ok
    obtain ⟨wellFormed, -, -, current, most⟩ := insert_spec headroom.tracks.wellFormed inserted
    have bound := maxActive_le wellFormed later
    obtain ⟨⟨-, whole, slots, -, -⟩, enough⟩ := headroom.maintained threshold order
    simp only [Managed.needsMaintenance, decide_eq_false_iff_not, not_lt, whole] at enough
    by_contra short
    have many : capacity ≤ (s'.maintained threshold order).bookKeeping.deletedSlots.card + maxPoints := by omega
    have deleted := (Nat.cast_le.mpr enough).trans (Nat.floor_le (by positivity))
    have many : (capacity : ℚ) ≤ (s'.maintained threshold order).bookKeeping.deletedSlots.card + maxPoints := by
      exact_mod_cast many
    have used : ((capacity - (s'.maintained threshold order).bookKeeping.emptySlots.length : ℕ) : ℚ) *
        threshold ≤ capacity * threshold := by gcongr; omega
    linarith
  | cons entry done ih =>
    rw [cons_append, map_cons, foldlM_cons, bind_eq_pure] at ok
    obtain ⟨v₁, first, later⟩ := ok
    rw [foldlM_cons] at ran
    obtain ⟨s₁, turn, ran⟩ := except_bind_eq_ok.mp ran
    rw [cons_append, flatMap_cons, ← append_assoc] at once
    refine ih ((headroom.maintained threshold entry.1).1.stage first turn ?_) later once ran
    exact disjoint_of_nodup_append (nodup_append'.mp once).1

/-- A stream whose headroom is larger than what the threshold lets pass has the slots of every insertion
of an accepted runbook that inserts no tag twice. -/
theorem headroom_suffices (maxPoints : ℕ) (threshold : ℚ) {rounds : List (DrainOrder × Stage)}
    {runbook : RunBook} {start : Session} (positive : 0 < threshold)
    (accepted : RunBook.new (rounds.map Prod.snd) maxPoints = pure runbook)
    (started : Session.start (streamCapacity runbook.maxPoints threshold) = some start)
    (once : (rounds.flatMap (·.2.inserted)).Nodup)
    (fits : streamCapacity runbook.maxPoints threshold ≤ 2 ^ 32)
    (room : threshold * streamCapacity runbook.maxPoints threshold + runbook.maxPoints <
      streamCapacity runbook.maxPoints threshold) :
    ∀ done order tags rest, rounds = done ++ (order, .insert tags) :: rest →
      ∀ s, done.foldlM (Session.round threshold) start = pure s → ∃ taken,
        (s.maintained threshold order).bookKeeping.getNEmptySlots tags.toList.length = pure taken := by
  rintro done order tags rest rfl s ran
  obtain ⟨v, valid, same⟩ := bind_eq_pure.mp accepted
  obtain rfl := Except.ok.inj (Option.some.inj same)
  have enough := (Headroom.start started fits).suffices_of_room positive valid once (le_max_right _ _) room ran
  exact ⟨_, if_neg enough.not_gt⟩

/-- With a quarter as threshold, the deleted slot is reclaimed before the second insertion. -/
theorem headroom_suffices_quarter : ∃ start, Session.start (streamCapacity 1 (1 / 4)) = some start ∧
    ∀ s, [(ascending, .insert ⟨0, 1⟩), (ascending, .delete ⟨0, 1⟩)].foldlM (Session.round (1 / 4)) start =
      pure s → ∃ taken, (s.maintained (1 / 4) ascending).bookKeeping.getNEmptySlots 1 = pure taken := by
  have capacity : streamCapacity 1 (1 / 4) = 2 := by norm_num [streamCapacity]
  rw [capacity]
  refine ⟨_, rfl, @headroom_suffices 1 (1 / 4) [(ascending, .insert ⟨0, 1⟩), (ascending, .delete ⟨0, 1⟩),
    (ascending, .insert ⟨1, 2⟩)] ⟨_, 1, some 1⟩ _ (by norm_num) rfl ?_ ?_ ?_ ?_
    [(ascending, .insert ⟨0, 1⟩), (ascending, .delete ⟨0, 1⟩)] ascending ⟨1, 2⟩ [] rfl⟩
  · rw [capacity]
    rfl
  · decide
  · rw [capacity]
    decide
  · rw [capacity]
    norm_num

/-- With a half as threshold one deleted slot is let pass, and it is the only one. -/
theorem headroom_runs_out : ∃ runbook start,
    RunBook.new [.insert ⟨0, 1⟩, .delete ⟨0, 1⟩, .insert ⟨1, 2⟩] 1 = pure runbook ∧ runbook.maxPoints = 1 ∧
      Session.start (streamCapacity 1 (1 / 2)) = some start ∧
      [(ascending, .insert ⟨0, 1⟩), (ascending, .delete ⟨0, 1⟩), (ascending, .insert ⟨1, 2⟩)].foldlM
        (Session.round (1 / 2)) start = throw "Insufficient empty slots: requested 1, available 0" := by
  have capacity : streamCapacity 1 (1 / 2) = 2 := by norm_num [streamCapacity]
  rw [capacity]
  -- the rationals do not evaluate, so half of the slots is written as a natural number
  have half : ∀ m, Managed.needsMaintenance m (1 / 2) =
      ((m.capacity - m.emptySlots.length) / 2 < m.deletedSlots.card) := by
    intro m
    rw [Managed.needsMaintenance, mul_one_div, decide_eq_true_eq]
    exact congrArg (· < _) (Nat.floor_div_ofNat _ 2)
  refine ⟨_, _, rfl, rfl, rfl, ?_⟩
  unfold Session.round Session.maintained
  simp only [half]
  rfl

end DiskAnn.Streaming
