import DiskAnn.Inmem.Provider
import DiskAnn.Inmem.StoreProtocol

/-! # The protocol of the provider

A task's token is its token of the slot store, what it holds of the id maps, and whether it has
written them in its current call. The maps agree except for the one pair of ids that a task in the
middle of an insertion or a deletion still has locked; and an internal id is mapped exactly while
its slot is published, from shortly before, while the task that inserted the pair still owns the
slot, until shortly after, while the task that retired the slot still holds the lock of the id.
-/

namespace DiskAnn.Inmem.Provider

open Machine Protocol Function Store

/-- What a task holds of the id maps. -/
inductive Hold (M : Type)
  | idle
  /-- The shard of an external id that is not mapped. -/
  | entered (e : M)
  /-- The shard of an external id that is mapped. -/
  | found (e : M) (i : ℕ)
  /-- Inserting, with both locks, before either map is written. -/
  | vacant (e : M) (i : ℕ)
  /-- Inserting, with both locks, after the backward map is written. -/
  | linked (e : M) (i : ℕ)
  /-- Inserting, with the lock of the block, after both maps are written. -/
  | inserted (e : M) (i : ℕ)
  /-- Has inserted the pair and still owns the slot. -/
  | mapped (e : M) (i : ℕ)
  /-- Holds the `Entry` of a pair whose slot it has not retired. -/
  | deleting (e : M) (i : ℕ)
  /-- Holds the `Entry` of a pair whose slot it has retired. -/
  | retired (e : M) (i : ℕ)
  /-- Deleting, with the lock of the block, after the forward map is written. -/
  | removed (e : M) (i : ℕ)
  /-- Deleting, with the lock of the block, after both maps are written. -/
  | cleared (i : ℕ)
  /-- Dropping an `Entry`, with the lock of the block. -/
  | releasing (i : ℕ)

namespace Hold

variable {n : ℕ} {M : Type} {i : ℕ}

/-- The external id whose shard is locked, with its entry. -/
@[grind] def key? : Hold M → Option (M × Option ℕ)
  | entered e | vacant e _ | linked e _ => some (e, none)
  | found e i | deleting e i | retired e i => some (e, some i)
  | _ => none

/-- The internal id whose block is locked. -/
@[grind] def block? : Hold M → Option ℕ
  | vacant _ i | linked _ i | inserted _ i | deleting _ i | retired _ i | removed _ i | cleared i
  | releasing i => some i
  | _ => none

/-- The internal id whose entry is known. -/
@[grind] def link? : Hold M → Option (ℕ × Option M)
  | vacant _ i | cleared i => some (i, none)
  | linked e i | inserted e i | mapped e i | deleting e i | retired e i | removed e i =>
      some (i, some e)
  | _ => none

/-- The pair that is in the backward map only. -/
@[grind] def half? : Hold M → Option (M × ℕ)
  | linked e i | removed e i => some (e, i)
  | _ => none

/-- The pair that is mapped although its slot need not be published. -/
@[grind] def keeps? : Hold M → Option (M × ℕ)
  | linked e i | inserted e i | mapped e i | retired e i | removed e i => some (e, i)
  | _ => none

/-- The owned slot whose id is being inserted. -/
@[grind] def inserting? : Hold M → Option ℕ
  | vacant _ i | linked _ i | inserted _ i | mapped _ i => some i
  | _ => none

/-- The retired slot whose id is being deleted. -/
@[grind] def erasing? : Hold M → Option ℕ
  | retired _ i | removed _ i | cleared i => some i
  | _ => none

theorem block_of_erasing {hold : Hold M} (erasing : hold.erasing? = some i) :
    hold.block? = some i := by
  cases hold <;> simp_all [erasing?, block?]

/-- An entry that a task knows without a lock is the one it has inserted. -/
theorem block_of_link {hold : Hold M} {entry : Option M} (link : hold.link? = some (i, entry)) :
    hold.block? = some i ∨ hold.inserting? = some i := by
  cases hold <;> simp_all [link?, block?, inserting?]

/-- The steps of the operations without an answer. -/
def Move (hold hold' : Hold M) : Op n M → Prop
  | .unlockForward e => (hold = entered e ∧ hold' = idle) ∨
      ∃ i, (hold = found e i ∧ hold' = idle) ∨ (hold = deleting e i ∧ hold' = releasing i)
  | .insertForward e i => hold = linked e i ∧ hold' = inserted e i
  | .removeForward e => ∃ i, hold = retired e i ∧ hold' = removed e i
  | .setBackward i entry => ∃ e, (hold = vacant e i ∧ entry = some e ∧ hold' = linked e i) ∨
      (hold = removed e i ∧ entry = none ∧ hold' = cleared i)
  | .unlockBackward i => (∃ e, hold = inserted e i ∧ hold' = mapped e i) ∨
      ((hold = cleared i ∨ hold = releasing i) ∧ hold' = idle)
  | _ => False

/-- What is held after a step is part of what was held before. -/
structure Within (hold' hold : Hold M) : Prop where
  entry : ∀ e found', hold'.key? = some (e, found') → ∃ found, hold.key? = some (e, found)
  block : ∀ i, hold'.block? = some i → hold.block? = some i
  inserting : ∀ i, hold'.inserting? = some i → hold.inserting? = some i
  erasing : ∀ i, hold'.erasing? = some i → hold.erasing? = some i

theorem Move.within {hold hold' : Hold M} {o : Op n M} (move : hold.Move hold' o) :
    hold'.Within hold := by
  cases o with
  | unlockForward e =>
    obtain ⟨rfl, rfl⟩ | ⟨i, ⟨rfl, rfl⟩ | ⟨rfl, rfl⟩⟩ := move <;> constructor <;>
      simp [key?, block?, inserting?, erasing?]
  | insertForward e i =>
    obtain ⟨rfl, rfl⟩ := move
    constructor <;> simp [key?, block?, inserting?, erasing?]
  | removeForward e =>
    obtain ⟨i, rfl, rfl⟩ := move
    constructor <;> simp [key?, block?, inserting?, erasing?]
  | setBackward i entry =>
    obtain ⟨e, ⟨rfl, rfl, rfl⟩ | ⟨rfl, rfl, rfl⟩⟩ := move <;> constructor <;>
      simp [key?, block?, inserting?, erasing?]
  | unlockBackward i =>
    obtain ⟨e, rfl, rfl⟩ | ⟨rfl | rfl, rfl⟩ := move <;> constructor <;>
      simp [key?, block?, inserting?, erasing?]
  | _ => exact move.elim

theorem within_idle (hold : Hold M) : idle.Within hold := by
  constructor <;> simp [key?, block?, inserting?, erasing?]

theorem block_of_keeps {hold : Hold M} {e : M} (keeps : hold.keeps? = some (e, i)) :
    hold.block? = some i ∨ hold.inserting? = some i := by
  cases hold <;> simp_all [keeps?, block?, inserting?]

/-- The accesses of the store for which it matters what a task holds. -/
def Allows (hold : Hold M) : Store.Op n → Prop
  | .casTag i _ new => (new = .owned ∧ hold = idle) ∨ (new = .retiring ∧ ∃ e, hold = deleting e i)
  | .storeTag i tag =>
      (tag = .available ∧ hold = idle) ∨ (tag = .published ∧ ∃ e, hold = mapped e i)
  | .storeMirror i tag =>
      hold = idle ∨ (tag = .published ∧ ∃ e, hold = mapped e i) ∨ ∃ e, hold = retired e i
  | _ => True

/-- What a task holds after an access of the store. -/
def after (hold : Hold M) : (o : Store.Op n) → o.Res → Hold M
  | .casTag _ _ _, claimed =>
      match hold, claimed with
      | deleting e i, true => retired e i
      | hold, _ => hold
  | .storeTag _ _, _ =>
      match hold with
      | mapped _ _ => idle
      | hold => hold
  | _, _ => hold

end Hold

structure Token (n : ℕ) (M : Type) where
  store : Store.Token n
  hold : Hold M
  edited : Bool

/-- Which operations a token allows and where they take the task. -/
def protocol (n : ℕ) (M : Type) (layout : Store.Layout) :
    Protocol (interface n M) Panic (Token n M) where
  pre token
    | .store o => (Store.protocol n layout).pre token.store o ∧ token.hold.Allows o
    | .lockForward _ => token.hold = .idle
    | .lockBackward i => (∃ e, token.hold = .entered e ∧ token.store.phase = .owned i) ∨
        ∃ e, token.hold = .found e i
    | .returns event => event ≠ .insert (.error .internalExists) ∧
        (event.failed = true → token.edited = false)
    | o => ∃ hold', token.hold.Move hold' o
  post token o := match o with
    | .store o => fun r token' => ∃ store', (Store.protocol n layout).post token.store o r store' ∧
        token' = ⟨store', token.hold.after o r, token.edited⟩
    | .lockForward e => fun (found : Option ℕ) token' =>
        (∀ i, found = some i → i < layout.unfrozen) ∧
        token' = { token with hold := match found with
          | none => .entered e
          | some i => .found e i }
    | .lockBackward i => fun (entry : Option M) token' =>
        (∃ e, token.hold = .entered e ∧ entry = none ∧ token' = { token with hold := .vacant e i }) ∨
        ∃ e, token.hold = .found e i ∧ entry = some e ∧
          token' = { token with hold := .deleting e i }
    | .returns (.insert _) => fun _ token' => token' = token
    | .returns _ => fun _ token' => token' = { token with edited := false }
    | .unlockForward e => fun _ token' => ∃ hold',
        token.hold.Move (n := n) hold' (.unlockForward e) ∧ token' = { token with hold := hold' }
    | .unlockBackward i => fun _ token' => ∃ hold',
        token.hold.Move (n := n) hold' (.unlockBackward i) ∧ token' = { token with hold := hold' }
    | o => fun _ token' => ∃ hold',
        token.hold.Move hold' o ∧ token' = { token with hold := hold', edited := true }
  mayPanic token reason := token.store.phase = .none ∧ token.hold = .idle ∧
    reason = .store (.epoch .epochExhausted)

/-- What the token of a task says about the shared state. -/
structure Token.Fits {n : ℕ} {τ M : Type} (shard : M → ℕ) (s : State n τ M) (token : Token n M) :
    Prop where
  entry : ∀ e found, token.hold.key? = some (e, found) →
    s.forwardLocks (shard e) = true ∧ s.forward e = found
  block : ∀ i, token.hold.block? = some i → s.backwardLocks (i / shardSize) = true
  link : ∀ i entry, token.hold.link? = some (i, entry) → s.backward i = entry
  removed : ∀ e i, token.hold = .removed e i → s.forward e ≠ some i
  inserting : ∀ i, token.hold.inserting? = some i →
    token.store.phase = .owned i ∨ token.store.phase = .publishing i
  erasing : ∀ i, token.hold.erasing? = some i → s.store.tags i ≠ .published

/-- What the tokens of two tasks say about each other. -/
structure Token.Apart {n : ℕ} {M : Type} (shard : M → ℕ) (a b : Token n M) : Prop where
  entry : ∀ e found e' found', a.hold.key? = some (e, found) → b.hold.key? = some (e', found') →
    shard e ≠ shard e'
  block : ∀ i j, a.hold.block? = some i → b.hold.block? = some j → i / shardSize ≠ j / shardSize
  erasing : ∀ i, a.hold.inserting? = some i → b.hold.erasing? ≠ some i
  erased : ∀ i, a.hold.erasing? = some i → b.hold.inserting? ≠ some i

/-- What holds of the id maps between the operations of any number of tasks. -/
structure MapInv {n : ℕ} {τ M : Type} (layout : Store.Layout) (shard : M → ℕ) (s : State n τ M)
    (tokens : τ → Token n M) : Prop where
  small : ∀ e i, s.forward e = some i → i < layout.unfrozen
  forward : ∀ e i, s.forward e = some i → s.backward i = some e
  backward : ∀ e i, s.backward i = some e →
    s.forward e = some i ∨ ∃ task, (tokens task).hold.half? = some (e, i)
  mapped : ∀ e i, s.backward i = some e →
    s.store.tags i = .published ∨ ∃ task, (tokens task).hold.keeps? = some (e, i)
  published : ∀ i, s.store.tags i = .published → ∃ e, s.backward i = some e
  consistent : Consistent (Token.Fits shard s) (Token.Apart shard) tokens
  edited : ∀ task, s.edited task = (tokens task).edited

/-- What holds between the operations of any number of tasks. -/
structure Inv {n : ℕ} {τ M : Type} (layout : Store.Layout) (shard : M → ℕ) (s : State n τ M)
    (tokens : τ → Token n M) : Prop where
  store : Store.Inv layout s.store fun task => (tokens task).store
  maps : MapInv layout shard s tokens

/-! ## The maps under the operations on them -/

section Maps

variable {n : ℕ} {τ M : Type} {layout : Store.Layout} {shard : M → ℕ} {s s' : State n τ M}
  {tokens : τ → Token n M} {task : τ} {a b : Token n M} {i : ℕ} {e : M} {hold' : Hold M}

theorem Token.fits_idle {token : Token n M} (idle : token.hold = .idle) : token.Fits shard s := by
  constructor <;> simp [idle, Hold.key?, Hold.block?, Hold.link?, Hold.inserting?, Hold.erasing?]

theorem Token.Apart.within {a' : Token n M} (within : a'.hold.Within a.hold)
    (apart : a.Apart shard b) : a'.Apart shard b where
  entry e _ e' found' mine theirs :=
    let ⟨found, before⟩ := within.entry e _ mine
    apart.entry e found e' found' before theirs
  block i j mine theirs := apart.block i j (within.block i mine) theirs
  erasing i mine := apart.erasing i (within.inserting i mine)
  erased i mine := apart.erased i (within.erasing i mine)

theorem Token.Apart.symm (apart : a.Apart shard b) : b.Apart shard a where
  entry e found e' found' mine theirs := (apart.entry e' found' e found theirs mine).symm
  block i j mine theirs := (apart.block j i theirs mine).symm
  erasing i mine theirs := apart.erased i theirs mine
  erased i mine theirs := apart.erasing i theirs mine

/-- Two tasks never own one slot. -/
theorem inserting_apart (fits : a.Fits shard s) (fits' : b.Fits shard s)
    (apart : a.store.phase.Apart b.store.phase) (mine : a.hold.inserting? = some i) :
    b.hold.inserting? ≠ some i := by
  intro theirs
  have index : ∀ {token : Token n M}, token.Fits shard s → token.hold.inserting? = some i →
      token.store.phase.index? = some i := by
    intro token fits inserting
    rcases fits.inserting i inserting with phase | phase <;> rw [phase] <;> rfl
  exact apart i (index fits mine) (index fits' theirs)

variable (inv : MapInv layout shard s tokens)
include inv

/-- Nobody else knows the entry of an internal id that a task is inserting or deleting. -/
theorem MapInv.unlinked {other : τ} (ne : other ≠ task)
    (phases : (tokens task).store.phase.Apart (tokens other).store.phase)
    (block : (tokens task).hold.block? = some i)
    (busy : (tokens task).hold.inserting? = some i ∨ (tokens task).hold.erasing? = some i)
    (entry : Option M) : (tokens other).hold.link? ≠ some (i, entry) := by
  intro link
  have apart := inv.consistent.pair task other ne.symm
  rcases Hold.block_of_link link with locked | inserting
  · exact apart.block i i block locked rfl
  · rcases busy with mine | mine
    · exact inserting_apart (inv.consistent.each task) (inv.consistent.each other) phases mine
        inserting
    · exact apart.erased i mine inserting

variable [DecidableEq τ]

/-- One task moves on. A pair that is in the maps by halves, or without a published slot, is in the
hands of that task now, or was in the hands of another task before. -/
theorem MapInv.step {token' : Token n M}
    (small : ∀ e i, s'.forward e = some i → i < layout.unfrozen)
    (forward : ∀ e i, s'.forward e = some i → s'.backward i = some e)
    (backward : ∀ e i, s'.backward i = some e → s'.forward e ≠ some i →
      token'.hold.half? ≠ some (e, i) →
      s.backward i = some e ∧ s.forward e ≠ some i ∧ (tokens task).hold.half? ≠ some (e, i))
    (mapped : ∀ e i, s'.backward i = some e → s'.store.tags i ≠ .published →
      token'.hold.keeps? ≠ some (e, i) →
      s.backward i = some e ∧ s.store.tags i ≠ .published ∧ (tokens task).hold.keeps? ≠ some (e, i))
    (published : ∀ i, s'.store.tags i = .published → ∃ e, s'.backward i = some e)
    (own : token'.Fits shard s')
    (others : ∀ other, other ≠ task → (tokens other).Fits shard s →
      (tokens task).Apart shard (tokens other) →
      (tokens other).Fits shard s' ∧ token'.Apart shard (tokens other))
    (edited : s'.edited = update s.edited task token'.edited) :
    MapInv layout shard s' (update tokens task token') where
  small := small
  forward := forward
  backward e i linked := by
    refine or_iff_not_imp_left.mpr fun unmapped => ?_
    by_cases mine : token'.hold.half? = some (e, i)
    · exact ⟨task, by simpa using mine⟩
    · obtain ⟨before, was, other⟩ := backward e i linked unmapped mine
      exact exists_update (fun token : Token n M => token.hold.half? = some (e, i))
        ((inv.backward e i before).resolve_left was) (absurd · other)
  mapped e i linked := by
    refine or_iff_not_imp_left.mpr fun unpublished => ?_
    by_cases mine : token'.hold.keeps? = some (e, i)
    · exact ⟨task, by simpa using mine⟩
    · obtain ⟨before, was, other⟩ := mapped e i linked unpublished mine
      exact exists_update (fun token : Token n M => token.hold.keeps? = some (e, i))
        ((inv.mapped e i before).resolve_left was) (absurd · other)
  published := published
  consistent := inv.consistent.replace own fun other ne =>
    let ⟨fits, apart⟩ := others other ne (inv.consistent.each other)
      (inv.consistent.pair task other ne.symm)
    ⟨fits, apart, apart.symm⟩
  edited other := by
    rw [edited]
    by_cases same : other = task
    · subst same
      simp
    · simpa [same] using inv.edited other

theorem MapInv.edited_self (task : τ) :
    s.edited = update s.edited task (tokens task).edited := by
  rw [← inv.edited task, update_eq_self]

/-- A step that leaves alone which pairs are mapped, which slots are published, and the pairs in the
hands of the task. -/
theorem MapInv.keep {token' : Token n M}
    (maps : s'.forward = s.forward ∧ s'.backward = s.backward)
    (tags : ∀ i, s'.store.tags i = .published ↔ s.store.tags i = .published)
    (hands : token'.hold.half? = (tokens task).hold.half? ∧
      token'.hold.keeps? = (tokens task).hold.keeps?) (own : token'.Fits shard s')
    (others : ∀ other, other ≠ task → (tokens other).Fits shard s →
      (tokens task).Apart shard (tokens other) →
      (tokens other).Fits shard s' ∧ token'.Apart shard (tokens other))
    (edited : s'.edited = update s.edited task token'.edited) :
    MapInv layout shard s' (update tokens task token') := by
  obtain ⟨forward, backward⟩ := maps
  obtain ⟨half, keeps⟩ := hands
  refine inv.step ?_ ?_ (fun e i => ?_) (fun e i => ?_) (fun i => ?_) own others edited
  · rw [forward]
    exact inv.small
  · rw [forward, backward]
    exact inv.forward
  · rw [forward, backward, half]
    exact fun linked unmapped mine => ⟨linked, unmapped, mine⟩
  · rw [backward, ne_eq, tags, keeps]
    exact fun linked unpublished mine => ⟨linked, unpublished, mine⟩
  · rw [tags, backward]
    exact inv.published i

theorem MapInv.lockForward (idle : (tokens task).hold = .idle)
    (free : s.forwardLocks (shard e) = false)
    (looked : hold' = match s.forward e with | none => .entered e | some i => .found e i) :
    MapInv layout shard
      { s with forwardLocks := update s.forwardLocks (shard e) true }
      (update tokens task { tokens task with hold := hold' }) := by
  have entry : hold'.key? = some (e, s.forward e) := by
    rw [looked]
    cases s.forward e <;> rfl
  have nothing : hold'.half? = none ∧ hold'.keeps? = none ∧ hold'.block? = none ∧
      hold'.link? = none ∧ hold'.inserting? = none ∧ hold'.erasing? = none ∧
      ∀ e i, hold' ≠ .removed e i := by
    rw [looked]
    cases s.forward e <;> simp [Hold.half?, Hold.keeps?, Hold.block?, Hold.link?,
      Hold.inserting?, Hold.erasing?]
  obtain ⟨half, keeps, block, link, inserting, erasing, removed⟩ := nothing
  refine inv.keep ⟨rfl, rfl⟩ (fun _ => Iff.rfl) (by rw [half, keeps, idle]; exact ⟨rfl, rfl⟩)
    ?_ (fun other _ fits _ => ⟨?_, ?_⟩) (inv.edited_self task)
  · constructor <;> simp [entry, block, link, inserting, erasing, removed]
  · refine { fits with entry := fun e' found has => ?_ }
    obtain ⟨locked, now⟩ := fits.entry e' found has
    exact ⟨by by_cases same : shard e' = shard e <;> simp [same, locked], now⟩
  · -- a shard that is free is nobody else's
    constructor
    · intro e₁ _ e' found has has' same
      obtain ⟨rfl, -⟩ : e = e₁ ∧ _ := by simpa [entry] using has
      simp [same, (fits.entry e' found has').1] at free
    · simp [block]
    · simp [inserting]
    · simp [erasing]

theorem MapInv.unlockForward (move : (tokens task).hold.Move (n := n) hold' (.unlockForward e)) :
    MapInv layout shard
      { s with forwardLocks := update s.forwardLocks (shard e) false }
      (update tokens task { tokens task with hold := hold' }) := by
  have own := inv.consistent.each task
  have entry : ∃ found, (tokens task).hold.key? = some (e, found) := by
    obtain ⟨hold, rfl⟩ | ⟨i, ⟨hold, rfl⟩ | ⟨hold, rfl⟩⟩ := move <;> rw [hold] <;> exact ⟨_, rfl⟩
  refine inv.keep ⟨rfl, rfl⟩ (fun _ => Iff.rfl) ?_ ?_ (fun other _ fits apart => ⟨?_, ?_⟩)
    (inv.edited_self task)
  · obtain ⟨hold, rfl⟩ | ⟨i, ⟨hold, rfl⟩ | ⟨hold, rfl⟩⟩ := move <;> rw [hold] <;> exact ⟨rfl, rfl⟩
  · obtain ⟨hold, rfl⟩ | ⟨i, ⟨hold, rfl⟩ | ⟨hold, rfl⟩⟩ := move
    · exact Token.fits_idle rfl
    · exact Token.fits_idle rfl
    · have locked := own.block i (by rw [hold]; rfl)
      constructor <;>
        simp [Hold.key?, Hold.block?, Hold.link?, Hold.inserting?, Hold.erasing?, locked]
  · refine { fits with entry := fun e' found' has => ?_ }
    obtain ⟨found, mine⟩ := entry
    simpa [(apart.entry e found e' found' mine has).symm] using fits.entry e' found' has
  · exact apart.within move.within

theorem MapInv.lockBackward (free : s.backwardLocks (i / shardSize) = false)
    (looked : (∃ e, (tokens task).hold = .entered e ∧ (tokens task).store.phase = .owned i ∧
        s.backward i = none ∧ hold' = .vacant e i) ∨
      ∃ e, (tokens task).hold = .found e i ∧ s.backward i = some e ∧ hold' = .deleting e i) :
    MapInv layout shard
      { s with backwardLocks := update s.backwardLocks (i / shardSize) true }
      (update tokens task { tokens task with hold := hold' }) := by
  have own := inv.consistent.each task
  have entry : hold'.key? = (tokens task).hold.key? ∧ hold'.erasing? = none ∧
      hold'.block? = some i ∧ ∀ j, hold'.inserting? = some j → j = i := by
    obtain ⟨e, hold, -, -, rfl⟩ | ⟨e, hold, -, rfl⟩ := looked <;>
      simp [hold, Hold.key?, Hold.erasing?, Hold.block?, Hold.inserting?]
  obtain ⟨entry, erasing, block, inserting⟩ := entry
  have unlocked : ∀ other j, (tokens other).hold.block? = some j → i / shardSize ≠ j / shardSize := by
    intro other j has same
    simp [same, (inv.consistent.each other).block j has] at free
  refine inv.keep ⟨rfl, rfl⟩ (fun _ => Iff.rfl) ?_ ?_ (fun other _ fits apart => ⟨?_, ?_⟩)
    (inv.edited_self task)
  · obtain ⟨e, hold, -, -, rfl⟩ | ⟨e, hold, -, rfl⟩ := looked <;> rw [hold] <;> exact ⟨rfl, rfl⟩
  · constructor
    · exact fun e found has => own.entry e found (entry ▸ has)
    · simp [block]
    · obtain ⟨e, -, -, vacant, rfl⟩ | ⟨e, -, linked, rfl⟩ := looked <;> simp_all [Hold.link?]
    · obtain ⟨e, -, -, -, rfl⟩ | ⟨e, -, -, rfl⟩ := looked <;> simp
    · obtain ⟨e, -, owned, -, rfl⟩ | ⟨e, -, -, rfl⟩ := looked <;> simp_all [Hold.inserting?]
    · simp [erasing]
  · refine { fits with block := fun j has => ?_ }
    by_cases same : j / shardSize = i / shardSize <;> simp [same, fits.block j has]
  · constructor
    · simpa only [entry] using apart.entry
    · intro j k mine theirs
      obtain rfl : i = j := by simpa [block] using mine
      exact unlocked other k theirs
    · intro j mine theirs
      exact unlocked other j (Hold.block_of_erasing theirs) (by rw [inserting j mine])
    · simp [erasing]

theorem MapInv.unlockBackward (move : (tokens task).hold.Move (n := n) hold' (.unlockBackward i)) :
    MapInv layout shard
      { s with backwardLocks := update s.backwardLocks (i / shardSize) false }
      (update tokens task { tokens task with hold := hold' }) := by
  have own := inv.consistent.each task
  have block : (tokens task).hold.block? = some i := by
    obtain ⟨e, hold, rfl⟩ | ⟨hold | hold, rfl⟩ := move <;> rw [hold] <;> rfl
  refine inv.keep ⟨rfl, rfl⟩ (fun _ => Iff.rfl) ?_ ?_ (fun other _ fits apart => ⟨?_, ?_⟩)
    (inv.edited_self task)
  · obtain ⟨e, hold, rfl⟩ | ⟨hold | hold, rfl⟩ := move <;> rw [hold] <;> exact ⟨rfl, rfl⟩
  · obtain ⟨e, hold, rfl⟩ | ⟨-, rfl⟩ := move
    · have linked := own.link i (some e) (by rw [hold]; rfl)
      have owns := own.inserting i (by rw [hold]; rfl)
      constructor <;> simp_all [Hold.key?, Hold.block?, Hold.link?, Hold.inserting?, Hold.erasing?]
    · exact Token.fits_idle rfl
  · refine { fits with block := fun j has => ?_ }
    simpa [(apart.block i j block has).symm] using fits.block j has
  · exact apart.within move.within

theorem MapInv.setBackward
    (phases : ∀ other, other ≠ task → (tokens task).store.phase.Apart (tokens other).store.phase)
    {entry : Option M} (move : (tokens task).hold.Move (n := n) hold' (.setBackward i entry)) :
    MapInv layout shard
      { s with
        backward := update s.backward i entry
        edited := update s.edited task true }
      (update tokens task { tokens task with hold := hold', edited := true }) := by
  have own := inv.consistent.each task
  have others : ∀ other, other ≠ task → (tokens other).Fits shard s →
      (tokens task).Apart shard (tokens other) →
      (tokens other).Fits shard { s with
        backward := update s.backward i entry
        edited := update s.edited task true } ∧
      Token.Apart shard { tokens task with hold := hold', edited := true } (tokens other) := by
    intro other ne fits apart
    refine ⟨{ fits with link := fun j v link => ?_ }, apart.within move.within⟩
    have elsewhere : j ≠ i := by
      rintro rfl
      obtain ⟨e, ⟨hold, -, -⟩ | ⟨hold, -, -⟩⟩ := move
      · exact inv.unlinked ne (phases other ne) (by rw [hold]; rfl)
          (.inl (by rw [hold]; rfl)) v link
      · exact inv.unlinked ne (phases other ne) (by rw [hold]; rfl)
          (.inr (by rw [hold]; rfl)) v link
    simpa [elsewhere] using fits.link j v link
  obtain ⟨e, ⟨hold, rfl, rfl⟩ | ⟨hold, rfl, rfl⟩⟩ := move
  · have free : s.backward i = none := own.link i none (by rw [hold]; rfl)
    refine inv.step inv.small ?_ ?_ ?_ ?_ ?_ others rfl
    · grind [MapInv]
    · grind
    · grind
    · grind [MapInv]
    · constructor <;> grind [Token.Fits]
  · have linked : s.backward i = some e := own.link i (some e) (by rw [hold]; rfl)
    have unmapped : s.forward e ≠ some i := own.removed e i hold
    have unpublished : s.store.tags i ≠ .published := own.erasing i (by rw [hold]; rfl)
    refine inv.step inv.small ?_ ?_ ?_ ?_ ?_ others rfl
    · grind [MapInv]
    · grind
    · grind
    · grind [MapInv]
    · constructor <;> grind [Token.Fits]

variable [DecidableEq M]

theorem MapInv.insertForward (small : i < layout.unfrozen)
    (hold : (tokens task).hold = .linked e i) :
    MapInv layout shard
      { s with
        forward := update s.forward e (some i)
        forwardLocks := update s.forwardLocks (shard e) false
        edited := update s.edited task true }
      (update tokens task { tokens task with hold := .inserted e i, edited := true }) := by
  have own := inv.consistent.each task
  have linked : s.backward i = some e := own.link i (some e) (by rw [hold]; rfl)
  have unmapped : s.forward e = none := (own.entry e none (by rw [hold]; rfl)).2
  refine inv.step ?_ ?_ ?_ ?_ inv.published ?_ (fun other _ fits apart => ⟨?_, ?_⟩) rfl
  · grind [MapInv]
  · grind [MapInv]
  · grind [MapInv]
  · grind [MapInv]
  · constructor <;> grind [Token.Fits]
  · refine { fits with entry := fun e' found has => ?_, removed := fun e' j theirs => ?_ }
    · have elsewhere := apart.entry e none e' found (by rw [hold]; rfl) has
      have ne : e' ≠ e := fun same => elsewhere (by rw [same])
      simpa [elsewhere.symm, ne] using fits.entry e' found has
    · have elsewhere := apart.block i j (by rw [hold]; rfl) (by rw [theirs]; rfl)
      by_cases same : e' = e
      · subst same
        simpa using fun same : i = j => elsewhere (by rw [same])
      · simpa [same] using fits.removed e' j theirs
  · have move : (tokens task).hold.Move (n := n) (.inserted e i) (.insertForward e i) := ⟨hold, rfl⟩
    exact apart.within move.within

theorem MapInv.removeForward (hold : (tokens task).hold = .retired e i) :
    MapInv layout shard
      { s with
        forward := update s.forward e none
        forwardLocks := update s.forwardLocks (shard e) false
        edited := update s.edited task true }
      (update tokens task { tokens task with hold := .removed e i, edited := true }) := by
  have own := inv.consistent.each task
  have mapped : s.forward e = some i := (own.entry e (some i) (by rw [hold]; rfl)).2
  refine inv.step ?_ ?_ ?_ ?_ inv.published ?_ (fun other _ fits apart => ⟨?_, ?_⟩) rfl
  · grind [MapInv]
  · grind [MapInv]
  · grind [MapInv]
  · grind [MapInv]
  · constructor <;> grind [Token.Fits]
  · refine { fits with entry := fun e' found has => ?_, removed := fun e' j theirs => ?_ }
    · have elsewhere := apart.entry e (some i) e' found (by rw [hold]; rfl) has
      have ne : e' ≠ e := fun same => elsewhere (by rw [same])
      simpa [elsewhere.symm, ne] using fits.entry e' found has
    · by_cases same : e' = e
      · subst same
        simp
      · simpa [same] using fits.removed e' j theirs
  · have move : (tokens task).hold.Move (n := n) (.removed e i) (.removeForward e) := ⟨i, hold, rfl⟩
    exact apart.within move.within

end Maps

/-! ## The maps under the accesses of the store -/

section Store

variable {n : ℕ} {τ M : Type} [DecidableEq τ] {layout : Store.Layout} {shard : M → ℕ}
  {s : State n τ M} {tokens : τ → Token n M} {task : τ} {store' : Store.State n τ}
  {token' : Store.Token n} {i : ℕ} (inv : MapInv layout shard s tokens)
include inv

/-- An access that publishes no slot and retires none. -/
theorem MapInv.frameStore (tags : ∀ i, store'.tags i = .published ↔ s.store.tags i = .published)
    (inserting : ∀ i, (tokens task).hold.inserting? = some i →
      token'.phase = .owned i ∨ token'.phase = .publishing i) :
    MapInv layout shard { s with store := store' }
      (update tokens task { tokens task with store := token' }) := by
  have moved : ∀ token : Token n M, token.Fits shard s → token.Fits shard { s with store := store' } :=
    fun token fits => { fits with
      erasing := fun i erasing published => fits.erasing i erasing ((tags i).mp published) }
  exact inv.keep ⟨rfl, rfl⟩ tags ⟨rfl, rfl⟩ { moved _ (inv.consistent.each task) with inserting }
    (fun _ _ fits apart => ⟨moved _ fits, { apart with }⟩) (inv.edited_self task)

/-- The CAS by which `delete` retires the slot of its entry. -/
theorem MapInv.claimRetired {e : M}
    (hold : (tokens task).hold = .deleting e i)
    (slots : Store.Inv layout s.store fun task => (tokens task).store)
    (now : s.store.tags i = .published)
    (tags : ∀ j, store'.tags j = if j = i then .retiring else s.store.tags j) :
    MapInv layout shard { s with store := store' }
      (update tokens task { tokens task with store := token', hold := .retired e i }) := by
  have own := inv.consistent.each task
  have linked : s.backward i = some e := own.link i (some e) (by rw [hold]; rfl)
  have uninserted : ∀ other, (tokens other).hold.inserting? ≠ some i := by
    intro other inserting
    rcases (inv.consistent.each other).inserting i inserting with phase | phase <;>
      simp [(slots.slots.consistent.each_of_eq phase _ _ _ rfl).2.1] at now
  have unpublished : ∀ j, s.store.tags j ≠ .published → store'.tags j ≠ .published := by
    intro j before
    rw [tags]
    split_ifs <;> simp_all
  refine inv.step inv.small inv.forward ?_ ?_ ?_ ?_ (fun other _ fits apart => ⟨?_, ?_⟩)
    (inv.edited_self task)
  · grind
  · grind
  · grind [MapInv]
  · constructor <;> grind [Token.Fits]
  · exact { fits with erasing := fun j erasing => unpublished j (fits.erasing j erasing) }
  · constructor
    · simpa [hold, Hold.key?] using apart.entry
    · simpa [hold, Hold.block?] using apart.block
    · simp [Hold.inserting?]
    · simpa [Hold.erasing?] using uninserted other

/-- The store to the tag by which `set_element` publishes the slot of its pair. -/
theorem MapInv.publish {e : M}
    (hold : (tokens task).hold = .mapped e i)
    (tags : ∀ j, store'.tags j = if j = i then .published else s.store.tags j) :
    MapInv layout shard { s with store := store' }
      (update tokens task { tokens task with store := token', hold := .idle }) := by
  have own := inv.consistent.each task
  have linked : s.backward i = some e := own.link i (some e) (by rw [hold]; rfl)
  refine inv.step inv.small inv.forward ?_ ?_ ?_ (Token.fits_idle rfl)
    (fun other _ fits apart => ⟨?_, ?_⟩) (inv.edited_self task)
  · grind
  · grind
  · grind [MapInv]
  · -- nobody is deleting an id that is being inserted
    refine { fits with erasing := fun j erasing => ?_ }
    have elsewhere : j ≠ i := by
      rintro rfl
      exact apart.erasing j (by rw [hold]; rfl) erasing
    simpa [tags, elsewhere] using fits.erasing j erasing
  · exact apart.within (Hold.within_idle _)

omit inv in
/-- A task goes on owning the slot whose id it is inserting until it publishes it. -/
theorem inserting_after {token : Store.Token n} {hold : Hold M} {o : Store.Op n} {r : o.Res}
    (inserting : hold.inserting? = some i)
    (owns : token.phase = .owned i ∨ token.phase = .publishing i) (allows : hold.Allows o)
    (pre : (Store.protocol n layout).pre token o) (unpublished : ∀ j tag, o ≠ .storeTag j tag)
    (post : (Store.protocol n layout).post token o r token') :
    token'.phase = .owned i ∨ token'.phase = .publishing i := by
  cases o with
  | epoch o =>
    cases o with
    | push q id =>
      rw [pre.2] at owns
      simp at owns
    | pop q =>
      rw [pre.2] at owns
      simp at owns
    | _ => exact post.2 ▸ owns
  | casTag j old new =>
    obtain ⟨-, rfl⟩ | ⟨-, e, rfl⟩ := allows <;> cases inserting
  | storeTag j tag => exact absurd rfl (unpublished j tag)
  | storeMirror j tag =>
    obtain rfl | ⟨rfl, e, rfl⟩ | ⟨e, rfl⟩ := allows
    · cases inserting
    · cases inserting
      obtain ⟨epoch', phase'⟩ := token'
      obtain ⟨-, move⟩ := post
      rcases owns with owns | owns <;> rw [owns] at move <;> cases move
      exact .inr rfl
    · cases inserting
  | loadTag j => exact post.1 ▸ owns
  | loadMirror j => exact post.1 ▸ owns
  | _ =>
    obtain rfl : token' = token := post
    exact owns

omit inv in
theorem Inv.storeStep (inv : Inv layout shard s tokens) {o : Store.Op n} {r : o.Res}
    (pre : (Store.protocol n layout).pre (tokens task).store o)
    (allows : (tokens task).hold.Allows o)
    (out : Store.exec layout task o s.store = some (store', r)) :
    ∃ token', (Store.protocol n layout).post (tokens task).store o r token' ∧
      Inv layout shard { s with store := store' }
        (update tokens task
          { tokens task with store := token', hold := (tokens task).hold.after o r }) := by
  obtain ⟨token', post, kept⟩ := (protocol_sound layout).step inv.store pre out
  have own := inv.maps.consistent.each task
  have tags := exec_tags out
  refine ⟨token', post, ?_, ?_⟩
  · rwa [update_part Token.store]
  cases o with
  | casTag i old new =>
    obtain ⟨small, -, phase', claim⟩ := pre
    simp only [Store.exec] at out
    obtain ⟨rfl, hold⟩ | ⟨rfl, e, hold⟩ := allows
    · cases claim
      have after : (tokens task).hold.after (.casTag i .available .owned) r = (tokens task).hold := by
        rw [hold]
        rfl
      rw [after]
      refine inv.maps.frameStore (fun j => ?_) (by simp [hold, Hold.inserting?])
      split_ifs at out with now <;> cases out
      · by_cases same : j = i
        · subst same
          simp [State.setOwned, now]
        · simp [State.setOwned, same]
      · rfl
    · cases claim
      split_ifs at out with now <;> cases out
      · simp only [hold]
        refine inv.maps.claimRetired hold inv.store now fun j => ?_
        simp [State.setOwned, update_apply]
      · simp only [Hold.after, hold]
        rw [← hold]
        exact inv.maps.frameStore (fun _ => Iff.rfl) (by simp [hold, Hold.inserting?])
  | storeTag i tag =>
    obtain ⟨rfl, hold⟩ | ⟨rfl, e, hold⟩ := allows
    · have fits := inv.store.slots.consistent.each task
      have unpublished : s.store.tags i ≠ .published := by
        have move : Phase.TagMove i .available (tokens task).store.phase := pre
        generalize (tokens task).store.phase = phase at move fits
        cases move <;> simp [(fits _ _ _ rfl).2.1]
      cases out
      simp only [Hold.after, hold]
      rw [← hold]
      refine inv.maps.frameStore (fun j => ?_) (by simp [hold, Hold.inserting?])
      by_cases same : j = i
      · subst same
        simp [State.setTag, unpublished]
      · simp [State.setTag, same]
    · cases out
      simp only [hold]
      refine inv.maps.publish hold fun j => ?_
      simp [State.setTag, update_apply]
  | _ =>
    have same : store'.tags = s.store.tags := funext fun i => by simpa using tags i
    refine inv.maps.frameStore (by simp [same]) fun i inserting => ?_
    exact inserting_after inserting (own.inserting i inserting) allows pre (by simp) post

/-- A call that returns forgets what it has written. -/
theorem MapInv.finish :
    MapInv layout shard { s with edited := update s.edited task false }
      (update tokens task { tokens task with edited := false }) :=
  inv.keep ⟨rfl, rfl⟩ (fun _ => Iff.rfl) ⟨rfl, rfl⟩ { inv.consistent.each task with }
    (fun _ _ fits apart => ⟨{ fits with }, { apart with }⟩) rfl

end Store

/-! ## Every operation keeps the invariant -/

section Sound

variable {n : ℕ} {τ M : Type} [DecidableEq τ] {layout : Store.Layout}

/-- The store and its tokens stay as they are. -/
theorem Inv.updateHold {s' : State n τ M} {token' : Token n M} (inv : Inv layout shard s tokens)
    (same : s'.store = s.store) (token : token'.store = (tokens task).store)
    (maps : MapInv layout shard s' (update tokens task token')) :
    Inv layout shard s' (update tokens task token') := by
  refine ⟨?_, maps⟩
  rw [update_part Token.store, token, update_eq_self task fun task => (tokens task).store, same]
  exact inv.store

variable [DecidableEq M]
  {shard : M → ℕ} {s : State n τ M} {tokens : τ → Token n M} {task : τ}

omit [DecidableEq τ] [DecidableEq M] in
/-- The entry of an owned slot is empty once its block can be locked: whoever retired the slot has
deleted its pair before releasing the block. -/
theorem Inv.unmapped (inv : Inv layout shard s tokens) {i : ℕ}
    (owned : (tokens task).store.phase = .owned i)
    (uninserted : (tokens task).hold.inserting? = none)
    (free : s.backwardLocks (i / shardSize) = false) : s.backward i = none := by
  obtain ⟨-, tagged, -⟩ := inv.store.slots.consistent.each_of_eq owned _ _ _ rfl
  by_contra linked
  obtain ⟨e, linked⟩ := Option.ne_none_iff_exists'.mp linked
  obtain published | ⟨other, keeps⟩ := inv.maps.mapped e i linked
  · simp [tagged] at published
  have fits := inv.maps.consistent.each other
  rcases Hold.block_of_keeps keeps with block | inserting
  · simp [fits.block i block] at free
  · have ne : other ≠ task := by
      rintro rfl
      simp [uninserted] at inserting
    have apart := inv.store.slots.consistent.pair other task ne i
    simp only [owned] at apart
    rcases fits.inserting i inserting with phase | phase <;> rw [phase] at apart <;>
      exact apart rfl rfl

/-- The protocol keeps the invariant at every operation. -/
theorem protocol_sound (layout : Store.Layout) (shard : M → ℕ) :
    (protocol n M layout).Sound (exec (τ := τ) layout shard) (Inv layout shard) where
  step := by
    intro tokens s s' task o r inv pre out
    have own := inv.maps.consistent.each task
    cases o with
    | store o =>
      obtain ⟨⟨store', r'⟩, ran, same⟩ := Option.map_eq_some_iff.mp out
      obtain ⟨rfl, rfl⟩ := Prod.mk.inj same
      obtain ⟨token', post, kept⟩ := inv.storeStep pre.1 pre.2 ran
      exact ⟨_, ⟨token', post, rfl⟩, kept⟩
    | lockForward e =>
      simp only [exec] at out
      split_ifs at out with locked
      cases out
      refine ⟨_, ⟨fun i found => inv.maps.small e i found, rfl⟩, inv.updateHold rfl rfl ?_⟩
      exact inv.maps.lockForward pre (by simpa using locked) rfl
    | unlockForward e =>
      cases out
      obtain ⟨hold', move⟩ := pre
      exact ⟨_, ⟨hold', move, rfl⟩, inv.updateHold rfl rfl (inv.maps.unlockForward move)⟩
    | insertForward e i =>
      cases out
      obtain ⟨hold', hold, rfl⟩ := pre
      have phase := own.inserting i (by rw [hold]; rfl)
      have small : i < layout.unfrozen := by
        rcases phase with phase | phase <;>
          exact (inv.store.slots.consistent.each_of_eq phase _ _ _ rfl).1
      exact ⟨_, ⟨_, ⟨hold, rfl⟩, rfl⟩, inv.updateHold rfl rfl (inv.maps.insertForward small hold)⟩
    | removeForward e =>
      cases out
      obtain ⟨hold', i, hold, rfl⟩ := pre
      exact ⟨_, ⟨_, ⟨i, hold, rfl⟩, rfl⟩, inv.updateHold rfl rfl (inv.maps.removeForward hold)⟩
    | lockBackward i =>
      simp only [exec] at out
      split_ifs at out with locked
      cases out
      have free : s.backwardLocks (i / shardSize) = false := by simpa using locked
      obtain ⟨e, hold, owned⟩ | ⟨e, hold⟩ := pre
      · have unmapped := inv.unmapped owned (by rw [hold]; rfl) free
        refine ⟨_, .inl ⟨e, hold, unmapped, rfl⟩, inv.updateHold rfl rfl ?_⟩
        exact inv.maps.lockBackward free (.inl ⟨e, hold, owned, unmapped, rfl⟩)
      · have mapped := inv.maps.forward e i (own.entry e (some i) (by rw [hold]; rfl)).2
        refine ⟨_, .inr ⟨e, hold, mapped, rfl⟩, inv.updateHold rfl rfl ?_⟩
        exact inv.maps.lockBackward free (.inr ⟨e, hold, mapped, rfl⟩)
    | setBackward i entry =>
      cases out
      obtain ⟨hold', move⟩ := pre
      have phases : ∀ other, other ≠ task →
          (tokens task).store.phase.Apart (tokens other).store.phase := fun other ne =>
        inv.store.slots.consistent.pair task other ne.symm
      exact ⟨_, ⟨hold', move, rfl⟩, inv.updateHold rfl rfl (inv.maps.setBackward phases move)⟩
    | unlockBackward i =>
      cases out
      obtain ⟨hold', move⟩ := pre
      exact ⟨_, ⟨hold', move, rfl⟩, inv.updateHold rfl rfl (inv.maps.unlockBackward move)⟩
    | returns event =>
      cases event with
      | insert res =>
        cases out
        exact ⟨_, rfl, by simpa using inv⟩
      | setElement res =>
        cases out
        exact ⟨_, rfl, inv.updateHold rfl rfl inv.maps.finish⟩
      | delete res =>
        cases out
        exact ⟨_, rfl, inv.updateHold rfl rfl inv.maps.finish⟩

end Sound

end DiskAnn.Inmem.Provider
