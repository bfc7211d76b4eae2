import DiskAnn.Inmem.ProviderProtocol
import DiskAnn.Inmem.StoreSafety

/-! # The id maps of the provider stay consistent

Any number of tasks set and delete elements, interleaved at every atomic operation, on any provider
that `Provider::new` creates.
-/

namespace DiskAnn.Inmem.Provider

open Machine Protocol Store Hold

section Code

variable {n : ℕ} {M : Type} {layout : Store.Layout} {store : Store.Token n} {edited : Bool}

/-- Code of the store that neither publishes nor retires, run by a task that holds nothing. -/
theorem neutral_wp {α : Type} {code : Store.Code n α} {Q : Store.Token n → α → Prop}
    (run : (neutral n layout).wp store code Q) :
    (protocol n M layout).wp ⟨store, .idle, edited⟩ (Provider.store code) fun token' r =>
      ∃ store', token' = ⟨store', .idle, edited⟩ ∧ Q store' r := by
  refine wp_mono (wp_lift (fun store wide => wide = ⟨store, .idle, edited⟩) ?_ ?_ rfl run) ?_
  · rintro store wide o rfl ⟨pre, neutral⟩
    refine ⟨⟨pre, ?_⟩, ?_⟩
    · cases o with
      | casTag i old new => exact .inl ⟨neutral, rfl⟩
      | storeTag i tag => exact .inl ⟨neutral, rfl⟩
      | storeMirror i tag => exact .inl rfl
      | _ => trivial
    · rintro r _ ⟨store', post, rfl⟩
      refine ⟨store', post, ?_⟩
      cases o <;> rfl
  · rintro store wide reason rfl ⟨⟨idle, rfl⟩, -⟩
    exact ⟨idle, rfl, rfl⟩
  · rintro token' r ⟨store', rfl, post⟩
    exact ⟨store', rfl, post⟩

/-- `retire` run by a task that holds the entry of the slot. -/
theorem retire_wp [NeZero n] {e : M} {i : ℕ} (free : store.Free) :
    (protocol n M layout).wp ⟨store, .deleting e i, edited⟩ (Provider.store (retire layout i))
      fun token' r => ∃ store', store'.Free ∧
        token' = ⟨store', if r = .ok () then .retired e i else .deleting e i, edited⟩ := by
  refine wp_mono (wp_lift (fun tracked wide =>
    wide = ⟨tracked.1, if tracked.2 then .retired e i else .deleting e i, edited⟩) ?_ ?_ rfl
      (Store.retire_wp free)) ?_
  · rintro ⟨store, seen⟩ wide o rfl ⟨pre, retires⟩
    refine ⟨⟨pre, ?_⟩, ?_⟩
    · cases o with
      | casTag j old new =>
        obtain ⟨rfl, rfl, rfl⟩ := retires
        exact .inr ⟨rfl, e, rfl⟩
      | storeTag j tag => exact retires.elim
      | storeMirror j tag =>
        obtain ⟨rfl, rfl⟩ := retires
        exact .inr (.inr ⟨e, rfl⟩)
      | _ => trivial
    · rintro r _ ⟨store', post, rfl⟩
      refine ⟨(store', seesClaim seen o r), ⟨post, rfl⟩, ?_⟩
      cases o with
      | casTag j old new =>
        obtain ⟨-, -, rfl⟩ := retires
        cases r <;> rfl
      | storeTag j tag => exact retires.elim
      | _ => rfl
  · rintro tracked wide reason rfl ⟨-, never⟩
    exact never.elim
  · rintro token' r ⟨⟨store', seen⟩, rfl, free, claimed⟩
    exact ⟨store', free, by simp only [claimed]⟩

theorem publish_wp {e : M} (slot : Slot) (owns : store.phase = .owned slot.slot) :
    (protocol n M layout).wp ⟨store, .mapped e slot.slot, edited⟩ (Provider.store slot.publish)
      fun token' _ => token' = ⟨⟨store.epoch, .none⟩, .idle, edited⟩ := by
  obtain ⟨epoch, phase⟩ := store
  obtain rfl : phase = .owned slot.slot := owns
  refine wp_call_iff.mpr ⟨⟨⟨_, .publish⟩, .inr (.inl ⟨rfl, e, rfl⟩)⟩, ?_⟩
  rintro _ _ ⟨⟨epoch', phase'⟩, ⟨rfl, move⟩, rfl⟩
  cases move
  refine wp_call_iff.mpr ⟨⟨.publish, .inr ⟨rfl, e, rfl⟩⟩, ?_⟩
  rintro _ _ ⟨store', rfl, rfl⟩
  exact wp_ret rfl

/-- `insert` either adds the pair of an owned slot or leaves both maps alone. -/
theorem insert_wp (e : M) {i : ℕ} (owns : store.phase = .owned i) :
    (protocol n M layout).wp ⟨store, .idle, edited⟩ (insert layout e i) fun token' r =>
      match r with
      | .ok () => token' = ⟨store, .mapped e i, true⟩
      | .error error => error ≠ .internalExists ∧ token' = ⟨store, .idle, edited⟩ := by
  unfold insert
  by_cases small : i < layout.unfrozen
  · rw [if_pos small]
    refine wp_op rfl ?_
    rintro (_ | j) token' ⟨-, rfl⟩
    · refine wp_op (.inl ⟨e, rfl, owns⟩) ?_
      rintro (entry : Option M) token' (⟨e', same, rfl, rfl⟩ | ⟨e', same, -⟩)
      · obtain rfl : e = e' := by simpa using same
        refine wp_op ⟨_, e, .inl ⟨rfl, rfl, rfl⟩⟩ ?_
        rintro _ _ ⟨hold', move, rfl⟩
        obtain rfl : hold' = .linked e i := by simpa [Move] using move
        refine wp_op ⟨_, rfl, rfl⟩ ?_
        rintro _ _ ⟨_, ⟨-, rfl⟩, rfl⟩
        refine wp_op ⟨_, .inl ⟨e, rfl, rfl⟩⟩ ?_
        rintro _ _ ⟨hold', move, rfl⟩
        obtain rfl : hold' = .mapped e i := by simpa [Move] using move
        exact wp_ret rfl
      · simp at same
    · refine wp_op ⟨_, .inr ⟨j, .inl ⟨rfl, rfl⟩⟩⟩ ?_
      rintro _ _ ⟨hold', move, rfl⟩
      obtain rfl : hold' = .idle := by simpa [Move] using move
      exact wp_ret ⟨by decide, rfl⟩
  · rw [if_neg small]
    exact wp_ret ⟨by decide, rfl⟩

/-- `occupied_entry` never finds its entry missing from the backward map. -/
theorem occupiedEntry_wp (e : M) :
    (protocol n M layout).wp ⟨store, .idle, edited⟩ (occupiedEntry layout e) fun token' r =>
      match r with
      | none => token' = ⟨store, .idle, edited⟩
      | some entry => token' = ⟨store, .deleting entry.external entry.internal, edited⟩ := by
  refine wp_op rfl ?_
  rintro (_ | i) token' ⟨small, rfl⟩
  · refine wp_op ⟨_, .inl ⟨rfl, rfl⟩⟩ ?_
    rintro _ _ ⟨hold', move, rfl⟩
    obtain rfl : hold' = .idle := by simpa [Move] using move
    exact wp_ret rfl
  · have bounded : i / shardSize < (layout.unfrozen + shardSize - 1) / shardSize := by
      have := small i rfl
      simp only [shardSize]
      omega
    dsimp only
    rw [if_pos bounded]
    refine wp_op (.inr ⟨e, rfl⟩) ?_
    rintro (entry : Option M) token' (⟨e', same, -, -⟩ | ⟨e', same, rfl, rfl⟩)
    · simp at same
    · obtain rfl : e = e' := by simpa using same
      exact wp_ret rfl

theorem Entry.delete_wp (entry : Entry M) :
    (protocol n M layout).wp ⟨store, .retired entry.external entry.internal, edited⟩ entry.delete
      fun token' _ => token' = ⟨store, .idle, true⟩ := by
  refine wp_op ⟨_, _, rfl, rfl⟩ ?_
  rintro _ _ ⟨hold', move, rfl⟩
  obtain rfl : hold' = .removed entry.external entry.internal := by simpa [Move] using move
  refine wp_op ⟨_, _, .inr ⟨rfl, rfl, rfl⟩⟩ ?_
  rintro _ _ ⟨hold', move, rfl⟩
  obtain rfl : hold' = .cleared entry.internal := by simpa [Move] using move
  refine wp_op ⟨_, .inr ⟨.inl rfl, rfl⟩⟩ ?_
  rintro _ _ ⟨hold', move, rfl⟩
  obtain rfl : hold' = .idle := by simpa [Move] using move
  exact wp_ret rfl

theorem Entry.drop_wp (entry : Entry M) :
    (protocol n M layout).wp ⟨store, .deleting entry.external entry.internal, edited⟩ entry.drop
      fun token' _ => token' = ⟨store, .idle, edited⟩ := by
  refine wp_op ⟨_, .inr ⟨_, .inr ⟨rfl, rfl⟩⟩⟩ ?_
  rintro _ _ ⟨hold', move, rfl⟩
  obtain rfl : hold' = .releasing entry.internal := by simpa [Move] using move
  refine wp_op ⟨_, .inr ⟨.inr rfl, rfl⟩⟩ ?_
  rintro _ _ ⟨hold', move, rfl⟩
  obtain rfl : hold' = .idle := by simpa [Move] using move
  exact wp_ret rfl

/-- A task between two calls. -/
def Token.Resting (token : Token n M) : Prop :=
  token.store.Free ∧ token.hold = .idle ∧ token.edited = false

theorem setElement_wp {E : Type} (layer : Layer E) (id : M) (element : E) (free : store.Free) :
    (protocol n M layout).wp ⟨store, .idle, false⟩ (setElement layout layer id element)
      fun token' r => token'.store.Free ∧ token'.hold = .idle ∧
        (∀ error, r = .error error → token'.edited = false) := by
  refine wp_seq (neutral_wp (Store.acquireWithin_wp _ free)) ?_
  rintro _ (_ | slot) ⟨⟨epoch, phase⟩, rfl, idle, owns⟩
  · exact wp_ret ⟨⟨idle, owns⟩, rfl, fun _ _ => rfl⟩
  obtain rfl : phase = .owned slot.slot := owns
  refine wp_seq (neutral_wp (writeAll_wp slot _ rfl)) ?_
  rintro _ _ ⟨_, rfl, rfl⟩
  generalize (layer.set element).2 = res
  cases res with
  | error message =>
    refine wp_seq (neutral_wp (drop_wp slot)) ?_
    rintro _ _ ⟨_, rfl, rfl⟩
    exact wp_ret ⟨⟨idle, rfl⟩, rfl, fun _ _ => rfl⟩
  | ok _ =>
    refine wp_seq (insert_wp id rfl) ?_
    rintro _ (error | _) out
    · obtain ⟨fresh, rfl⟩ := out
      refine wp_op ⟨by simpa using fresh, fun _ => rfl⟩ ?_
      rintro _ _ rfl
      refine wp_seq (neutral_wp (drop_wp slot)) ?_
      rintro _ _ ⟨_, rfl, rfl⟩
      exact wp_ret ⟨⟨idle, rfl⟩, rfl, fun _ _ => rfl⟩
    · obtain rfl := out
      refine wp_op ⟨by simp, by simp [Event.failed]⟩ ?_
      rintro _ _ rfl
      refine wp_seq (publish_wp slot rfl) ?_
      rintro _ _ rfl
      exact wp_ret ⟨⟨idle, rfl⟩, rfl, by simp⟩

theorem delete_wp [NeZero n] (id : M) (free : store.Free) :
    (protocol n M layout).wp ⟨store, .idle, false⟩ (delete layout id) fun token' r =>
      token'.store.Free ∧ token'.hold = .idle ∧
        (∀ error, r = .error error → token'.edited = false) := by
  refine wp_seq (occupiedEntry_wp id) ?_
  rintro _ (_ | entry) out
  · obtain rfl := out
    exact wp_ret ⟨free, rfl, fun _ _ => rfl⟩
  · obtain rfl := out
    refine wp_seq (retire_wp free) ?_
    rintro _ (error | _) ⟨store', free, rfl⟩
    · refine wp_seq (Entry.drop_wp entry) ?_
      rintro _ _ rfl
      exact wp_ret ⟨free, rfl, fun _ _ => rfl⟩
    · refine wp_seq (entry.delete_wp) ?_
      rintro _ _ rfl
      exact wp_ret ⟨free, rfl, by simp⟩

theorem client_wp [NeZero n] {E : Type} (layer : Layer E) (requests : List (Request M E))
    {token : Token n M} (resting : token.Resting) :
    (protocol n M layout).wp token (client layout layer requests) fun token' _ => token'.Resting := by
  induction requests generalizing token with
  | nil => exact wp_ret resting
  | cons request rest ih =>
    obtain ⟨store, hold, edited⟩ := token
    obtain ⟨free, rfl, rfl⟩ := resting
    refine wp_bind ?_
    cases request with
    | setElement id element =>
      refine wp_seq (setElement_wp layer id element free) ?_
      rintro token' res ⟨free, idle, failed⟩
      refine wp_op_iff.mpr ⟨⟨by simp, ?_⟩, ?_⟩
      · cases res <;> simp [Event.failed, failed]
      · rintro _ _ rfl
        exact ih ⟨free, idle, rfl⟩
    | delete id =>
      refine wp_seq (delete_wp id free) ?_
      rintro token' res ⟨free, idle, failed⟩
      refine wp_op_iff.mpr ⟨⟨by simp, ?_⟩, ?_⟩
      · cases res <;> simp [Event.failed, failed]
      · rintro _ _ rfl
        exact ih ⟨free, idle, rfl⟩

end Code

section Safety

variable {n : ℕ} [NeZero n] {τ M E : Type} [DecidableEq τ] [DecidableEq M] {layer : Layer E}
  {config : Config} {startPoints : List E} {layout : Store.Layout} {shard : M → ℕ}
  {state : State n τ M} {requests : τ → List (Request M E)}
  {c : Machine.Config (interface n M) Panic τ (State n τ M)}
  (created : new n τ M layer config startPoints = .ok (layout, state))
include created

omit [NeZero n] [DecidableEq τ] [DecidableEq M] in
/-- What `Provider::new` returns: empty maps over a new store. -/
theorem new_eq_ok :
    ∃ storeConfig rows store, Store.new n τ storeConfig rows = .ok (layout, store) ∧
      state = .empty M store := by
  unfold new at created
  cases rows : startPoints.mapM (startRow layer) with
  | error error => simp [rows, bind, Except.bind] at created
  | ok rows' =>
    simp only [rows, bind, Except.bind] at created
    split at created
    · rename_i store made
      obtain ⟨rfl, rfl⟩ := Prod.mk.inj (Except.ok.inj created)
      exact ⟨_, _, _, made, rfl⟩
    · cases created

omit [NeZero n] [DecidableEq τ] [DecidableEq M] in
theorem inv_new :
    Inv layout shard state fun _ => ⟨⟨.idle, .none⟩, .idle, false⟩ := by
  obtain ⟨storeConfig, rows, store, made, rfl⟩ := new_eq_ok created
  refine ⟨Store.inv_new made, ?_⟩
  refine {
    small := by simp [State.empty]
    forward := by simp [State.empty]
    backward := by simp [State.empty]
    mapped := by simp [State.empty]
    published := fun i published => absurd published (Store.new_unpublished made i)
    consistent := ⟨fun _ => Token.fits_idle rfl, fun _ _ _ => ?_⟩
    edited := fun _ => rfl }
  constructor <;> simp [key?, block?, erasing?]

theorem explained (reachable : Config.Reachable (exec layout shard) (start layout layer state requests) c) :
    ∃ tokens, (protocol n M layout).Explains (Inv layout shard) (fun token _ => token.Resting) c
      tokens :=
  (protocol_sound layout shard).reachable
    ⟨fun _ => ⟨⟨.idle, .none⟩, .idle, false⟩, inv_new created, fun task =>
      client_wp layer (requests task) ⟨⟨rfl, rfl⟩, rfl, rfl⟩⟩ reachable

omit created

omit [NeZero n] [DecidableEq τ] [DecidableEq M] in
/-- Where both its locks are free, a pair is in both maps or in neither. -/
theorem Inv.inverse {s : State n τ M} {tokens : τ → Token n M} (inv : Inv layout shard s tokens)
    {e : M} {i : ℕ} (free : s.backwardLocks (i / shardSize) = false) :
    s.forward e = some i ↔ s.backward i = some e := by
  refine ⟨inv.maps.forward e i, fun linked => (inv.maps.backward e i linked).resolve_right ?_⟩
  rintro ⟨task, half⟩
  have block : (tokens task).hold.block? = some i := by
    generalize (tokens task).hold = hold at half
    cases hold <;> simp_all [half?, block?]
  simp [(inv.maps.consistent.each task).block i block] at free

omit [NeZero n] [DecidableEq τ] [DecidableEq M] in
/-- While no task holds anything, exactly the published slots are mapped. -/
theorem Inv.mapped_iff {s : State n τ M} {tokens : τ → Token n M} (inv : Inv layout shard s tokens)
    (idle : ∀ task, (tokens task).hold = .idle) (i : ℕ) :
    ((∃ e, s.forward e = some i) ↔ s.store.tags i = .published) ∧
      ((∃ e, s.backward i = some e) ↔ s.store.tags i = .published) := by
  have half : ∀ e, s.backward i = some e → s.forward e = some i := fun e linked =>
    (inv.maps.backward e i linked).resolve_right (by simp [idle, half?])
  have linked : (∃ e, s.backward i = some e) ↔ s.store.tags i = .published := by
    refine ⟨?_, inv.maps.published i⟩
    rintro ⟨e, linked⟩
    exact (inv.maps.mapped e i linked).resolve_right (by simp [idle, keeps?])
  refine ⟨⟨?_, fun published => ?_⟩, linked⟩
  · rintro ⟨e, mapped⟩
    exact linked.mp ⟨e, inv.maps.forward e i mapped⟩
  · obtain ⟨e, found⟩ := linked.mpr published
    exact ⟨e, half e found⟩

/-- The two maps are inverse to each other wherever their locks are free, and no two external ids
ever have one internal id. No call of `insert` returns `InternalExists`, no assertion fails, so the
only panic is that of an exhausted epoch counter, and a call that returns an error has not written
either map. Once every call has returned or panicked, exactly the published slots are mapped. -/
theorem mapping_consistent (created : new n τ M layer config startPoints = .ok (layout, state))
    (reachable : Config.Reachable (exec layout shard) (start layout layer state requests) c) :
    (∀ e i, c.shared.forwardLocks (shard e) = false →
      c.shared.backwardLocks (i / shardSize) = false →
      (c.shared.forward e = some i ↔ c.shared.backward i = some e)) ∧
    (∀ e e' i, c.shared.forward e = some i → c.shared.forward e' = some i → e = e') ∧
    (∀ task event next, c.code task = .call (.returns event) next →
      event ≠ .insert (.error .internalExists) ∧
      (event.failed = true → c.shared.edited task = false)) ∧
    (∀ task reason, c.code task = .panic reason → reason = .store (.epoch .epochExhausted)) ∧
    ((∀ task, c.Done task ∨ ∃ reason, c.code task = .panic reason) → ∀ i,
      ((∃ e, c.shared.forward e = some i) ↔ c.shared.store.tags i = .published) ∧
      ((∃ e, c.shared.backward i = some e) ↔ c.shared.store.tags i = .published)) := by
  obtain ⟨tokens, explains⟩ := explained created reachable
  have inv := explains.1
  refine ⟨fun e i _ free => inv.inverse free, fun e e' i mapped mapped' => ?_,
    fun task event next shape => ?_, fun task reason shape => (explains.mayPanic shape).2.2,
    fun quiet => inv.mapped_iff fun task => ?_⟩
  · have same := (inv.maps.forward e i mapped).symm.trans (inv.maps.forward e' i mapped')
    exact Option.some.inj same
  · obtain ⟨fresh, failed⟩ := explains.pre shape
    exact ⟨fresh, fun error => (inv.maps.edited task).trans (failed error)⟩
  · rcases quiet task with done | ⟨reason, shape⟩
    · exact (explains.done done).2.1
    · exact (explains.mayPanic shape).2.1

/-- One task sets an element and deletes it again, another sets a second one. In the end the slot of
the second one is published and mapped. -/
theorem mapping_consistent_set_then_delete :
    ∃ layout state c, new 1 Bool ℕ (⟨1, fun _ => ([(0, 5)], .ok ())⟩ : Layer Unit) ⟨2, 1, none⟩ [()] =
        .ok (layout, state) ∧
      Config.Reachable (exec layout id) (start layout ⟨1, fun _ => ([(0, 5)], .ok ())⟩ state fun task =>
        if task then [.setElement 3 (), .delete 3] else [.setElement 4 ()]) c ∧
      (∀ task, c.Done task) ∧ c.shared.store.tags 0 = .retiring ∧ c.shared.forward 3 = none ∧
      c.shared.store.tags 1 = .published ∧ ∃ e, c.shared.forward e = some 1 := by
  have created : new 1 Bool ℕ (⟨1, fun _ => ([(0, 5)], .ok ())⟩ : Layer Unit) ⟨2, 1, none⟩ [()] =
    .ok (⟨2, 3, 1024, by decide, by decide⟩,
      .empty ℕ ((Store.State.empty 1 Bool 1).freezeRows 2 [[5]])) := rfl
  have reachable := Config.Reachable.of_run (exec ⟨2, 3, 1024, by decide, by decide⟩ id)
    (start ⟨2, 3, 1024, by decide, by decide⟩ ⟨1, fun _ => ([(0, 5)], .ok ())⟩
      (.empty ℕ ((Store.State.empty 1 Bool 1).freezeRows 2 [[5]])) fun task =>
        if task then [.setElement 3 (), .delete 3] else [.setElement 4 ()])
    (List.replicate 33 true ++ List.replicate 16 false) rfl
  exact ⟨_, _, _, created, reachable, fun task => by cases task <;> rfl, rfl, rfl, rfl,
    ((mapping_consistent created reachable).2.2.2.2
      (fun task => .inl (by cases task <;> rfl)) 1).1.mpr rfl⟩

end Safety

end DiskAnn.Inmem.Provider
