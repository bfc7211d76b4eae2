import DiskAnn.Garnet.FsmCode

/-! # The free space map hands out every id once

Any number of tasks call `next_id` and `mark_free`, interleaved at every atomic access, and callbacks
fail wherever they like. A call takes effect where its read-modify-write changes a bit of the bitmap:
from there on the id belongs to the `next_id`, or to nobody after a `mark_free`. The history counts
these effects, and what `next_id` has returned.
-/

namespace DiskAnn.Garnet.Fsm

open Machine Protocol

variable {τ : Type} {reliable : Prop} {s : State τ} {tokens : τ → Token}

/-- No call is under way. -/
structure State.AtRest (s : State τ) : Prop where
  unlocked : s.minterLock = none
  readers : s.readers = []
  owed : s.owed = []
  unsettled : s.unsettled = []
  unannounced : s.unannounced = []
  refill : s.refillLock = []

/-- A task that has not called anything. -/
def Token.fresh : Token := ⟨none, none, none, none, none, none, none, .idle⟩

theorem Token.fresh_calm : Token.fresh.Calm none none := ⟨rfl, rfl, rfl, rfl, rfl, rfl⟩

theorem Inv.of_rest (sound : s.Sound reliable) (rest : s.AtRest) :
    Inv reliable s fun _ => .fresh where
  sound
  readers := rest.readers ▸ Ledger.nil fun _ => rfl
  owed := rest.owed ▸ Ledger.nil fun _ => rfl
  unsettled := rest.unsettled ▸ Ledger.nil fun _ => rfl
  unannounced := rest.unannounced ▸ Ledger.nil fun _ => rfl
  refill := rest.refill ▸ Ledger.nil fun _ => rfl
  minter := fun locked => absurd rest.unlocked locked
  consistent := ⟨fun _ => ⟨⟨nofun, nofun, nofun⟩, trivial⟩, fun _ _ _ => .inl rfl⟩

theorem Inv.atRest (inv : Inv reliable s tokens) (calm : ∀ task, (tokens task).Calm none none) :
    s.AtRest where
  unlocked := by
    by_contra locked
    obtain ⟨task, minting⟩ := inv.minter locked
    exact minting (calm task).minting
  readers := inv.readers.eq_nil fun task => (calm task).barrier_eq
  owed := inv.owed.eq_nil fun task => (calm task).owes_eq
  unsettled := inv.unsettled.eq_nil fun task => (calm task).settle
  unannounced := inv.unannounced.eq_nil fun task => (calm task).announce
  refill := inv.refill.eq_nil fun task => (calm task).refill

/-! ## Counts -/

/-- The number of bits that are set. -/
noncomputable def State.setBits (s : State τ) : ℕ := {id | s.used id = true}.ncard

theorem State.Sound.setBits_eq (sound : s.Sound reliable) : s.setBits = s.usedCount := by
  rw [State.setBits, State.usedCount, ← Set.ncard_coe_finset]
  congr 1
  ext id
  simp only [Finset.coe_filter, Finset.mem_range]
  exact ⟨fun set => ⟨(sound.used_lt id set).1, set⟩, fun set => set.2⟩

theorem State.Sound.usedCount_lt (sound : s.Sound reliable) : s.usedCount < 2 ^ 64 := by
  calc s.usedCount ≤ (Finset.range s.idMinter.nextId).card := Finset.card_filter_le _ _
    _ = s.idMinter.nextId := Finset.card_range _
    _ ≤ u32Max := sound.nextId_le
    _ < 2 ^ 64 := by decide

theorem State.Sound.totalUsed_toNat (sound : s.Sound reliable) (settled : s.unsettled = []) :
    s.totalUsed.toNat = s.setBits := by
  have total : s.totalUsed = BitVec.ofNat 64 s.usedCount := by
    rw [sound.total, settled]
    simp [balance]
  rw [total, sound.setBits_eq, BitVec.toNat_ofNat, Nat.mod_eq_of_lt sound.usedCount_lt]

theorem State.Sound.returned_le (sound : s.Sound reliable) (id : ℕ) :
    s.returned id + s.owed.countP (·.2 = id) ≤ s.freed id + 1 := by
  rw [← sound.returned, sound.taken]
  split_ifs <;> omega

/-- An id that a task still owes has been freed as often as it was returned. -/
theorem Inv.returned_le (inv : Inv reliable s tokens) {task : τ} {id : ℕ}
    (owes : (tokens task).owes = some id) : s.returned id ≤ s.freed id := by
  have owed : 0 < s.owed.countP (·.2 = id) :=
    List.countP_pos_iff.mpr ⟨_, (inv.owed.mem_iff task id).mpr owes, by simp⟩
  have bound := inv.sound.returned_le id
  omega

/-- When nothing is owed, the bits that are set are those of ids returned and not freed since. -/
theorem State.Sound.returned_eq (sound : s.Sound reliable) (owed : s.owed = []) (id : ℕ) :
    s.returned id = s.freed id + if s.used id then 1 else 0 := by
  have returned := sound.returned id
  rw [owed, List.countP_nil, Nat.add_zero] at returned
  rw [← returned, sound.taken]

/-! ## Construction -/

/-- What a map is built from says where the bits are that are set. -/
structure Loaded.Accurate (loaded : Loaded) (blocks : ℕ → Option Block) (maxBlock : ℕ) : Prop where
  used_lt : ∀ id, bitSet blocks id = true →
    id < (loaded.lastUsedId + 1).toNat % 2 ^ 32 ∧ id / blockSizeIds ≤ maxBlock
  total : loaded.totalUsed =
    ((Finset.range ((loaded.lastUsedId + 1).toNat % 2 ^ 32)).filter (bitSet blocks ·)).card
  listed : ∀ id ∈ loaded.fastFreeList,
    id < (loaded.lastUsedId + 1).toNat % 2 ^ 32 ∧ id / blockSizeIds ≤ maxBlock
  maxBlock_lt : maxBlock < u32Max
  stored : ∀ k ≤ maxBlock, (blocks k).isSome = true
  room : (loaded.lastUsedId + 1).toNat % 2 ^ 32 ≤ (maxBlock + 1) * blockSizeIds

theorem Loaded.Accurate.sound {loaded : Loaded} {blocks : ℕ → Option Block} {maxBlock : ℕ}
    (accurate : loaded.Accurate blocks maxBlock) (clock : ℕ)
    (quantizationEnabled reuseEnabled : Bool) :
    (State.over τ blocks clock loaded maxBlock quantizationEnabled reuseEnabled).Sound reliable where
  taken := fun _ => (Nat.zero_add _).symm
  returned := fun _ => rfl
  total := by
    have count : (State.over τ blocks clock loaded maxBlock quantizationEnabled
        reuseEnabled).usedCount = loaded.totalUsed := accurate.total.symm
    rw [count]
    simp [balance, State.over]
  used_lt := accurate.used_lt
  listed := accurate.listed
  counter_le := le_rfl
  nextId_le := Nat.le_of_lt_succ (Nat.mod_lt _ (by decide))
  maxBlock_lt := accurate.maxBlock_lt
  stored := accurate.stored
  room := fun _ _ => accurate.room

theorem State.over_atRest (blocks : ℕ → Option Block) (clock : ℕ) (loaded : Loaded) (maxBlock : ℕ)
    (quantizationEnabled reuseEnabled : Bool) :
    (State.over τ blocks clock loaded maxBlock quantizationEnabled reuseEnabled).AtRest :=
  ⟨rfl, rfl, rfl, rfl, rfl, rfl⟩

/-- Nothing is loaded from a store whose first block is being made. -/
theorem Loaded.accurate_empty :
    Loaded.Accurate ⟨-1, 0, [], 0⟩ (Function.update (fun _ => none) 0 (some Block.zero)) 0 where
  used_lt := by
    intro id set
    rw [bitSet_newBlock] at set
    split_ifs at set
    have clear : bitSet (fun _ => none) id = false := by
      change bitUsed (Block.zero (indexesForId id).2.1) (indexesForId id).2.2 = false
      rw [bitUsed_eq]
      exact BitVec.getLsbD_zero
    cases clear.symm.trans set
  total := rfl
  listed := nofun
  maxBlock_lt := by decide
  stored := fun k bound => by
    obtain rfl := Nat.le_zero.mp bound
    rfl
  room := by decide

theorem new_empty (reliable : Prop) {fails : ℕ → Bool} {quantizationEnabled reuseEnabled : Bool}
    (opened : new τ fails (fun _ => none) quantizationEnabled reuseEnabled = .ok s) :
    s.Sound reliable ∧ s.AtRest := by
  rw [new, if_neg (by simp)] at opened
  split_ifs at opened
  cases opened
  exact ⟨Loaded.accurate_empty.sound 2 _ _, State.over_atRest _ _ _ _ _ _⟩

theorem new_empty_used {fails : ℕ → Bool} {quantizationEnabled reuseEnabled : Bool}
    (opened : new τ fails (fun _ => none) quantizationEnabled reuseEnabled = .ok s) (id : ℕ) :
    s.used id = false := by
  rw [new, if_neg (by simp)] at opened
  split_ifs at opened
  cases opened
  by_contra set
  exact Nat.not_lt_zero id (Loaded.accurate_empty.used_lt id (eq_true_of_ne_false set)).1

/-! ## Runs -/

variable [DecidableEq τ] {fails : ℕ → Bool} {requests : τ → List Request}
  {c : Config interface Panic τ (State τ)}

theorem explained (faults : reliable → ∀ n, fails n = false) (sound : s.Sound reliable)
    (rest : s.AtRest) (reachable : Config.Reachable (exec fails) (start s requests) c) :
    ∃ tokens, (protocol reliable).Explains (Inv reliable) (fun token _ => token.Calm none none) c
      tokens :=
  (protocol_sound faults).reachable
    ⟨_, .of_rest sound rest, fun task => client_wp (requests task) Token.fresh_calm⟩ reachable

end DiskAnn.Garnet.Fsm
