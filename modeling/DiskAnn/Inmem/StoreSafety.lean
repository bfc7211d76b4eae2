import DiskAnn.Inmem.StoreCode

/-! # Snapshot stability and tag transitions of the slot store

Any number of tasks open and drop readers, read, acquire, write, publish and drop slots, retire and
drain, interleaved at every atomic access, on any store that `Store::new` creates.
-/

namespace DiskAnn.Inmem.Store

open Machine Protocol State Phase

/-! ## Users of the store -/

section Client

variable {n : ℕ} {layout : Layout} {token : Token n}

theorem readerReadAll_wp {guard : Epoch.Guard n} (slots : List ℕ)
    (guards : token.epoch.Guards guard.slot) :
    (protocol n layout).wp token (readerReadAll layout guard slots) fun token' _ =>
      token' = token := by
  induction slots with
  | nil => exact wp_ret rfl
  | cons i rest ih =>
    refine wp_seq (R := fun token' _ => token' = token) ?_ ?_
    · by_cases below : i < layout.total
      · rw [readerRead, if_pos below]
        refine wp_op ⟨guards, below⟩ ?_
        rintro _ token' rfl
        exact wp_ret rfl
      · rw [readerRead, if_neg below]
        exact wp_ret rfl
    · rintro token' _ rfl
      exact ih

theorem request_wp [NeZero n] (request : Request) (free : token.Free) :
    (protocol n layout).wp token (request.code layout) fun token' _ => token'.Free := by
  cases request with
  | read slots =>
    have opened : ((protocol n layout).restrict (fun _ _ => True) fun _ => True).wp token
        (registry Epoch.guard) _ :=
      registry_wp (fun _ _ _ => trivial) free.2 (Epoch.guard_wp _ free.1)
    refine wp_seq (wp_of_restrict opened) ?_
    rintro token' (_ | guard) ⟨idle, of⟩
    · exact wp_ret ⟨of, idle⟩
    obtain ⟨stored, epoch, guarding, -⟩ := of
    refine wp_seq (readerReadAll_wp slots ⟨stored, epoch, guarding⟩) ?_
    rintro token _ rfl
    refine wp_op_iff.mpr ⟨⟨stored, epoch, guarding⟩, ?_⟩
    exact fun _ _ dropped => free_of_dropped dropped.1 (dropped.2.trans idle)
  | write bytes publish =>
    refine wp_seq (wp_of_restrict (acquireWithin_wp _ free)) ?_
    rintro ⟨epoch, phase⟩ (_ | acquired) ⟨epoch_free, rfl⟩
    · exact wp_ret ⟨epoch_free, rfl⟩
    refine wp_seq (wp_of_restrict (writeAll_wp acquired bytes rfl)) ?_
    rintro token' _ rfl
    cases publish with
    | true =>
      refine wp_seq (publish_wp acquired) ?_
      rintro token' _ rfl
      exact wp_ret ⟨epoch_free, rfl⟩
    | false =>
      refine wp_mono (wp_of_restrict (drop_wp acquired)) ?_
      rintro token' _ rfl
      exact ⟨epoch_free, rfl⟩
  | retire i =>
    refine wp_seq (wp_of_track (wp_of_restrict (retire_wp free))) ?_
    exact fun _ _ ⟨_, free, _⟩ => wp_ret free
  | drain =>
    refine wp_seq (wp_of_restrict (tryDrain_wp free)) ?_
    exact fun _ _ free => wp_ret free

theorem client_wp [NeZero n] (requests : List Request) (free : token.Free) :
    (protocol n layout).wp token (client layout requests) fun token' _ => token'.Free := by
  induction requests generalizing token with
  | nil => exact wp_ret free
  | cons request rest ih =>
    exact wp_seq (request_wp request free) fun _ _ free => ih free

end Client

/-! ## A new store -/

section New

variable {n : ℕ} {τ : Type} {config : Config} {layout : Layout} {state : State n τ}

theorem freezeRows_tags (s : State n τ) (start : ℕ) (rows : List (List UInt8)) (i : ℕ) :
    (s.freezeRows start rows).tags i =
        (if start ≤ i ∧ i < start + rows.length then .frozen else s.tags i) ∧
      (s.freezeRows start rows).mirrors i =
        if start ≤ i ∧ i < start + rows.length then .frozen else s.mirrors i := by
  induction rows generalizing s start with
  | nil =>
    have outside : ¬ (start ≤ i ∧ i < start + ([] : List (List UInt8)).length) := by simp
    simp only [freezeRows, if_neg outside, and_self]
  | cons row rest ih =>
    obtain ⟨tags, mirrors⟩ := ih (s.freezeRow start row) (start + 1)
    rw [freezeRows, tags, mirrors, List.length_cons]
    by_cases here : i = start
    · subst here
      simp [freezeRow]
    · have same : (start + 1 ≤ i ∧ i < start + 1 + rest.length) ↔
          (start ≤ i ∧ i < start + (rest.length + 1)) := by omega
      simp only [freezeRow, Function.update_of_ne here, same, and_self]

theorem freezeRows_rest (s : State n τ) (start : ℕ) (rows : List (List UInt8)) :
    (s.freezeRows start rows).registry = s.registry ∧ (s.freezeRows start rows).held = s.held ∧
      (s.freezeRows start rows).reads = s.reads := by
  induction rows generalizing s start with
  | nil => exact ⟨rfl, rfl, rfl⟩
  | cons row rest ih => exact ih (s.freezeRow start row) (start + 1)

/-- What `Store::new` returns. -/
theorem new_eq_ok {init : Rows} (created : new n τ config init = .ok (layout, state)) :
    layout.unfrozen = config.entries ∧ layout.total = config.entries + init.rows.length ∧
      state = (empty n τ config.bytes).freezeRows config.entries init.rows := by
  unfold new at created
  split_ifs at created with dim nonempty fits neighbors
  dsimp only at created
  split_ifs at created with buffer lists
  obtain ⟨rfl, rfl⟩ := Prod.mk.inj (Except.ok.inj created)
  exact ⟨rfl, rfl, rfl⟩

/-- A new store has nothing published. -/
theorem new_unpublished {init : Rows} (created : new n τ config init = .ok (layout, state))
    (i : ℕ) : state.tags i ≠ .published := by
  obtain ⟨-, -, rfl⟩ := new_eq_ok created
  rw [(freezeRows_tags _ _ _ i).1]
  split_ifs <;> simp [empty]

/-- What `Store::new` returns satisfies the invariant, with nothing in the hands of any task. -/
theorem inv_new {init : Rows} (created : new n τ config init = .ok (layout, state)) :
    Inv layout state fun _ => ⟨.idle, .none⟩ := by
  obtain ⟨unfrozen, total, same⟩ := new_eq_ok created
  obtain ⟨registry, held, reads⟩ :=
    freezeRows_rest (empty n τ config.bytes) config.entries init.rows
  have tags := freezeRows_tags (empty n τ config.bytes) config.entries init.rows
  rw [← same] at registry held reads tags
  have settled : ∀ i, state.tags i = state.mirrors i := by
    intro i
    rw [(tags i).1, (tags i).2]
    rfl
  constructor
  · rw [registry]
    exact Epoch.inv_withCapacity
  · refine {
      frozen := fun i above below => ?_
      settled := fun i => by simp [settled i]
      consistent := ⟨fun _ => by simp [Fits, view],
        fun _ _ _ => by simp [Apart, index?, view]⟩
      queued := by simp [registry, empty, Epoch.Registry.withCapacity]
      queued_once := by simp [registry, empty, Epoch.Registry.withCapacity]
      reads_live := by simp [reads, empty]
      reads_protected := by simp [reads, empty]
      held := by simp [held, empty, Phase.held] }
    rw [← settled i, (tags i).1, if_pos ⟨by omega, by omega⟩]
    exact ⟨rfl, rfl⟩

end New

/-! ## Safety -/

section Safety

variable {i : ℕ}

/-- Only a write to a slot changes its bytes. -/
theorem exec_data {n : ℕ} {τ : Type} [DecidableEq τ] {layout : Layout} {task : τ} {o : Op n}
    {s s' : State n τ} {r : o.Res} (out : exec layout task o s = some (s', r))
    (other : ∀ offset byte, o ≠ .writeByte i offset byte) : s'.data i = s.data i := by
  cases o with
  | epoch o =>
    obtain ⟨⟨registry, r'⟩, -, same⟩ := Option.map_eq_some_iff.mp out
    obtain ⟨rfl, -⟩ := Prod.mk.inj same
    cases o <;> rfl
  | casTag j old new =>
    simp only [exec] at out
    split_ifs at out <;> cases out <;> rfl
  | read slot j =>
    cases out
    split_ifs <;> rfl
  | writeByte j offset byte =>
    cases out
    have ne : i ≠ j := fun same => other offset byte (by rw [same])
    simp [ne]
  | pushRecycled id =>
    simp only [exec] at out
    split_ifs at out <;> cases out <;> rfl
  | casNext next =>
    simp only [exec] at out
    split_ifs at out <;> cases out <;> rfl
  | _ =>
    cases out
    rfl

variable {n : ℕ} [NeZero n] {τ : Type} [DecidableEq τ] {config : Config} {init : Rows}
  {layout : Layout} {state : State n τ} {requests : τ → List Request}
  {c : Machine.Config (interface n) Panic τ (State n τ)}

theorem explained (created : new n τ config init = .ok (layout, state))
    (reachable : Config.Reachable (exec layout) (start layout state requests) c) :
    ∃ tokens, (protocol n layout).Explains (Inv layout) (fun token _ => token.Free) c tokens :=
  (protocol_sound layout).reachable
    ⟨fun _ => ⟨.idle, .none⟩, inv_new created, fun task => client_wp (requests task) ⟨rfl, rfl⟩⟩
    reachable

/-- The phase of a task that holds a `Slot`. -/
theorem Phase.of_held {phase : Phase} {stage : Stage} (held : phase.held = some (i, stage)) :
    phase.index? = some i ∧ (∀ j, phase ≠ .retired j) ∧
      (stage = .publishing ∨ phase.view = some (i, .owned, .available)) := by
  cases phase <;> simp_all [Phase.held, Phase.index?, Phase.view]

omit [NeZero n] [DecidableEq τ] in
/-- Whoever still holds a slot that a reader has read has handed it to `publish`. -/
theorem Inv.held_publishing {s : State n τ} {tokens : τ → Token n} (inv : Inv layout s tokens)
    {slot : Fin n} (read : i ∈ s.reads slot) {task : τ} {stage : Stage}
    (held : s.held task = some (i, stage)) : stage = .publishing := by
  rw [inv.slots.held] at held
  obtain ⟨has, unretired, publishing | view⟩ := of_held held
  · exact publishing
  · obtain ⟨-, -, mirrored⟩ := inv.slots.consistent.each task i _ _ view
    refine absurd read (inv.slots.unread (by rw [mirrored]; rfl)
      (inv.slots.unretired has (unretired i)) ?_ slot)
    rintro q entry mem rfl
    exact (inv.slots.queued q entry mem).2.2.2 task has

omit [NeZero n] [DecidableEq τ] in
theorem Inv.held_unique {s : State n τ} {tokens : τ → Token n} (inv : Inv layout s tokens)
    {task task' : τ} {stage stage' : Stage} (held : s.held task = some (i, stage))
    (held' : s.held task' = some (i, stage')) : task = task' := by
  by_contra ne
  rw [inv.slots.held] at held held'
  exact inv.slots.consistent.pair task task' ne i (of_held held).1
    (of_held held').1

/-- Once a reader has read a slot, nobody owns the slot until the reader is dropped, so its bytes do
not change; and no two live `Slot`s have the same index. A `Slot` that `publish` has consumed may
still be on its way from the store to the mirror to the store to the tag. -/
theorem snapshot_stable (created : new n τ config init = .ok (layout, state))
    (reachable : Config.Reachable (exec layout) (start layout state requests) c) :
    (∀ slot, ∀ i ∈ c.shared.reads slot, ∀ task stage, c.shared.held task = some (i, stage) →
      stage = .publishing) ∧
    (∀ slot, ∀ i ∈ c.shared.reads slot, ∀ task c', c.step (exec layout) task = some c' →
      c'.shared.data i = c.shared.data i) ∧
    ∀ task task' i stage stage', c.shared.held task = some (i, stage) →
      c.shared.held task' = some (i, stage') → task = task' := by
  obtain ⟨tokens, explains⟩ := explained created reachable
  have inv := explains.1
  refine ⟨fun slot i read task stage held => inv.held_publishing read held, ?_,
    fun task task' i stage stage' held held' => inv.held_unique held held'⟩
  intro slot i read task c' step
  obtain ⟨o, next, s', r, shape, outcome, rfl⟩ | ⟨β, γ, body, b, next, -, rfl⟩ :=
    Config.step_cases step
  · by_cases writes : ∃ offset byte, o = .writeByte i offset byte
    · obtain ⟨offset, byte, rfl⟩ := writes
      have owns : (tokens task).phase = .owned i := explains.pre shape
      have held : c.shared.held task = some (i, .owned) := by
        rw [inv.slots.held task, owns]
        rfl
      exact absurd (inv.held_publishing read held) (by decide)
    · exact exec_data outcome fun offset byte same => writes ⟨offset, byte, same⟩
  · rfl

/-- A reader reads slot 0 between the two stores of its publication; the task that still holds the
slot has handed it to `publish`. -/
theorem snapshot_stable_read_while_publishing :
    ∃ layout state c, new 1 Bool ⟨1, 1, 1, 1⟩ ⟨1, [[5]]⟩ = .ok (layout, state) ∧
      Config.Reachable (exec layout) (start layout state fun task =>
        if task then [.write [(0, 7)] true] else [.read [0]]) c ∧
      0 ∈ c.shared.reads 0 ∧ c.shared.held true = some (0, .publishing) ∧
      ∀ task stage, c.shared.held task = some (0, stage) → stage = .publishing := by
  have created : new 1 Bool ⟨1, 1, 1, 1⟩ ⟨1, [[5]]⟩ =
    .ok (⟨1, 2, 1, by decide, by decide⟩, (State.empty 1 Bool 1).freezeRows 1 [[5]]) := rfl
  have reachable := Config.Reachable.of_run (exec ⟨1, 2, 1, by decide, by decide⟩)
    (start ⟨1, 2, 1, by decide, by decide⟩ ((State.empty 1 Bool 1).freezeRows 1 [[5]]) fun task =>
      if task then [.write [(0, 7)] true] else [.read [0]])
    (List.replicate 8 true ++ List.replicate 7 false) rfl
  have read := List.mem_cons_self (a := 0) (l := [])
  exact ⟨_, _, _, created, reachable, read, rfl, (snapshot_stable created reachable).1 0 0 read⟩

/-- The tag of every slot only makes the documented transitions; a frozen slot stays frozen, is held
by nobody, and neither `acquire` nor `retire` ever claims it; and the only panic is the one of an
exhausted epoch counter, so every assertion of `try_drain` holds. -/
theorem tags_follow_protocol (created : new n τ config init = .ok (layout, state))
    (reachable : Config.Reachable (exec layout) (start layout state requests) c) :
    (∀ task c', c.step (exec layout) task = some c' → ∀ i,
      c'.shared.tags i = c.shared.tags i ∨ Tag.Transition (c.shared.tags i) (c'.shared.tags i)) ∧
    (∀ i, layout.unfrozen ≤ i → i < layout.total → c.shared.tags i = .frozen ∧
      (∀ task stage, c.shared.held task ≠ some (i, stage)) ∧
      (∀ task old new next, c.code task ≠ .call (.casTag i old new) next) ∧
      ∀ task q id next, c.code task = .call (.epoch (.push q id)) next → id.toNat ≠ i) ∧
    ∀ task reason, c.code task = .panic reason → reason = .epoch .epochExhausted := by
  obtain ⟨tokens, explains⟩ := explained created reachable
  have inv := explains.1
  refine ⟨?_, fun i above below => ⟨(inv.slots.frozen i above below).1, ?_, ?_, ?_⟩,
    fun task reason shape => (explains.mayPanic shape).2⟩
  · intro task c' step i
    obtain ⟨o, next, s', r, shape, outcome, rfl⟩ | ⟨β, γ, body, b, next, -, rfl⟩ :=
      Config.step_cases step
    · obtain same | ⟨new, rfl, moved⟩ | ⟨tag, rfl, moved⟩ := exec_tags outcome i
      · exact .inl same
      · obtain ⟨-, -, phase', claim⟩ := explains.pre shape
        rw [moved]
        generalize c.shared.tags i = old at claim
        cases claim
        · exact .inr .acquire
        · exact .inr .retire
      · have move : Phase.TagMove i tag (tokens task).phase := explains.pre shape
        have fits := inv.slots.consistent.each task
        rw [moved]
        generalize (tokens task).phase = phase at move fits
        cases move
        · rw [(fits _ _ _ rfl).2.1]
          exact .inr .publish
        · rw [(fits _ _ _ rfl).2.1]
          exact .inr .abandon
        · rw [(fits _ _ _ rfl).2.1]
          exact .inr .reclaim
    · exact .inl rfl
  · intro task stage held
    rw [inv.slots.held] at held
    have small := ((inv.slots.consistent.each task).index (Phase.of_held held).1).1
    omega
  · intro task old new next shape
    have small : i < layout.unfrozen := (explains.pre shape).1
    omega
  · rintro task q id next shape rfl
    obtain ⟨-, retired⟩ := explains.pre shape
    have small := (inv.slots.consistent.each_of_eq retired _ _ _ rfl).1
    omega

/-- A slot is published, retired and reclaimed by the third drain. -/
theorem tags_follow_protocol_reclaim :
    ∃ layout state c c', new 1 Unit ⟨1, 1, 1, 1⟩ ⟨1, [[5]]⟩ = .ok (layout, state) ∧
      Config.Reachable (exec layout) (start layout state fun _ =>
        [.write [] true, .retire 0, .drain, .drain, .drain]) c ∧
      c.step (exec layout) () = some c' ∧ c.shared.tags 0 = .retiring ∧
      c'.shared.tags 0 = .available ∧
      (c'.shared.tags 0 = c.shared.tags 0 ∨ Tag.Transition (c.shared.tags 0) (c'.shared.tags 0)) := by
  have created : new 1 Unit ⟨1, 1, 1, 1⟩ ⟨1, [[5]]⟩ =
    .ok (⟨1, 2, 1, by decide, by decide⟩, (State.empty 1 Unit 1).freezeRows 1 [[5]]) := rfl
  have reachable := Config.Reachable.of_run (exec ⟨1, 2, 1, by decide, by decide⟩)
    (start ⟨1, 2, 1, by decide, by decide⟩ ((State.empty 1 Unit 1).freezeRows 1 [[5]]) fun _ =>
      [.write [] true, .retire 0, .drain, .drain, .drain]) (List.replicate 45 ()) rfl
  exact ⟨_, _, _, _, created, reachable, rfl, rfl, rfl,
    (tags_follow_protocol created reachable).1 () _ rfl 0⟩

end Safety

end DiskAnn.Inmem.Store
