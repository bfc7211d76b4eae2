import DiskAnn.Garnet.Fsm
import DiskAnn.Machine.Ledger
import DiskAnn.Machine.Protocol

/-! # The protocol of the free space map

What a task knows between its operations, and the invariant that ties it to the map. A task may mark
an id used if it popped the id from the list, or if it is minting the id behind the lock of the
minter. The counter that others read while an id is minted does not cover that id, so its bit is
still clear when the minter sets it, and a new block never overwrites a bit that is set.

`reliable` says that no callback fails; then no mint ends before its id is marked.
-/

namespace DiskAnn.Garnet.Fsm

open List Function State Nat

variable {blocks : ℕ → Option Block} {k : ℕ}

open Machine

/-! ## The bitmap -/

theorem bitUsed_eq (byte : BitVec 8) (bidx : ℕ) : bitUsed byte bidx = byte.getLsbD (7 - bidx) := by
  rw [bitUsed, show (1 : BitVec 8) = 1#8 from rfl, BitVec.and_one_eq_setWidth_ofBool_getLsbD,
    BitVec.getLsbD_ushiftRight]
  cases byte.getLsbD (7 - bidx) <;> rfl

theorem getLsbD_mask (bidx : ℕ) {i : ℕ} (small : i < 8) :
    ((1 : BitVec 8) <<< (7 - bidx)).getLsbD i = decide (i = 7 - bidx) := by
  rcases lt_trichotomy i (7 - bidx) with below | rfl | above
  · simp [below, below.ne]
  · simp [small]
  · have shifted : i - (7 - bidx) ≠ 0 := by omega
    simp [above.ne', shifted]

theorem bitUsed_updateStatus (used : Bool) (byte : BitVec 8) {bidx other : ℕ} (here : bidx < 8)
    (there : other < 8) : bitUsed (updateStatus used byte bidx).1 other =
      if other = bidx then used else bitUsed byte other := by
  have small : 7 - other < 8 := by omega
  have same : 7 - other = 7 - bidx ↔ other = bidx := by omega
  rw [bitUsed_eq, bitUsed_eq, updateStatus]
  simp only [BitVec.getLsbD_or, BitVec.getLsbD_and, BitVec.getLsbD_not, getLsbD_mask _ small, same]
  cases used
  · by_cases equal : other = bidx <;> simp [equal, small]
  · simp only [if_true, getLsbD_mask _ small, same]
    by_cases equal : other = bidx <;> simp [equal, small]

theorem updateStatus_changed (used : Bool) (byte : BitVec 8) {bidx : ℕ} (here : bidx < 8) :
    (updateStatus used byte bidx).2 = (bitUsed byte bidx != used) := by
  have small : 7 - bidx < 8 := by omega
  have clear : (byte &&& (1 : BitVec 8) <<< (7 - bidx) == 0) = !bitUsed byte bidx := by
    rw [bitUsed_eq, Bool.eq_iff_iff, beq_iff_eq, Bool.not_eq_true']
    constructor
    · intro zero
      have bit : (byte &&& (1 : BitVec 8) <<< (7 - bidx)).getLsbD (7 - bidx) = false := by
        rw [zero]
        exact BitVec.getLsbD_zero
      rw [BitVec.getLsbD_and, getLsbD_mask _ small] at bit
      simpa using bit
    · intro bit
      refine BitVec.eq_of_getLsbD_eq fun i small => ?_
      rw [BitVec.getLsbD_and, getLsbD_mask _ small]
      by_cases here : i = 7 - bidx
      · simp [here, bit]
      · simp [here]
  rw [updateStatus]
  simp only [bne, clear]
  cases used <;> cases bitUsed byte bidx <;> rfl

theorem indexesForId_injective : Injective indexesForId := by
  intro id other same
  obtain ⟨block, byte, bit⟩ : id / blockSizeIds = other / blockSizeIds ∧
      id % blockSizeIds / 8 = other % blockSizeIds / 8 ∧
      id % blockSizeIds % 8 = other % blockSizeIds % 8 := by
    simpa [indexesForId] using same
  have inner : id % blockSizeIds = other % blockSizeIds := by omega
  rw [← id.div_add_mod blockSizeIds, block, inner, div_add_mod]

theorem indexesForId_bit_lt (id : ℕ) : (indexesForId id).2.2 < 8 := mod_lt _ (by decide)

variable (blocks)

theorem writeBit_changed (id : ℕ) (used : Bool) :
    (writeBit blocks id used).2 = (bitSet blocks id != used) :=
  updateStatus_changed used _ (indexesForId_bit_lt id)

theorem bitSet_writeBit (id : ℕ) (used : Bool) (other : ℕ) :
    bitSet (writeBit blocks id used).1 other = if other = id then used else bitSet blocks other := by
  have bits := bitUsed_updateStatus used
    ((blocks (indexesForId id).1).getD Block.zero (indexesForId id).2.1)
    (indexesForId_bit_lt id) (indexesForId_bit_lt other)
  have same : other = id ↔ (indexesForId other).1 = (indexesForId id).1 ∧
      (indexesForId other).2.1 = (indexesForId id).2.1 ∧
      (indexesForId other).2.2 = (indexesForId id).2.2 := by
    rw [← indexesForId_injective.eq_iff, Prod.ext_iff, Prod.ext_iff]
  simp only [bitSet, writeBit]
  by_cases block : (indexesForId other).1 = (indexesForId id).1
  · rw [block, update_self, Option.getD_some]
    by_cases byte : (indexesForId other).2.1 = (indexesForId id).2.1
    · rw [byte, update_self, bits]
      simp only [same, block, byte, true_and]
    · simp [same, byte]
  · simp [same, block]

theorem bitSet_newBlock (blockId id : ℕ) :
    bitSet (update blocks blockId (some Block.zero)) id =
      if id / blockSizeIds = blockId then false else bitSet blocks id := by
  change bitUsed ((update blocks blockId (some Block.zero) (id / blockSizeIds)).getD
    Block.zero _) _ = _
  by_cases here : id / blockSizeIds = blockId
  · rw [here, update_self, if_pos rfl, bitUsed_eq]
    exact BitVec.getLsbD_zero
  · rw [update_of_ne here, if_neg here]
    rfl

variable {blocks}

/-- The bits of a block that exists. -/
theorem bitSet_of_block {blockId : ℕ} {block : Block} (stored : blocks blockId = some block)
    (inside : k < blockSizeIds) :
    bitUsed (block (k / 8)) (k % 8) = bitSet blocks (blockId * blockSizeIds + k) := by
  have here : (blockId * blockSizeIds + k) / blockSizeIds = blockId := by
    rw [mul_comm, mul_add_div (by decide), div_eq_of_lt inside, add_zero]
  have offset : (blockId * blockSizeIds + k) % blockSizeIds = k := by
    rw [mul_comm, mul_add_mod, mod_eq_of_lt inside]
  simp only [bitSet, indexesForId, here, offset, stored, Option.getD_some]

/-- A block that does not exist has no bit set. -/
theorem bitSet_stored {id : ℕ} (set : bitSet blocks id = true) :
    blocks (id / blockSizeIds) ≠ none := by
  intro absent
  have clear : bitSet blocks id = false := by
    change bitUsed ((blocks (id / blockSizeIds)).getD Block.zero _) _ = false
    rw [absent, bitUsed_eq]
    exact BitVec.getLsbD_zero
  cases clear.symm.trans set

/-- Blocks that exist are only ever rewritten. -/
theorem isSome_update (stored : (blocks k).isSome = true) (blockId : ℕ) (block : Block) :
    (update blocks blockId (some block) k).isSome = true := by
  by_cases here : k = blockId
  · rw [here, update_self]
    rfl
  · rwa [update_of_ne here]

theorem isSome_writeBit (stored : (blocks k).isSome = true) (id : ℕ) (used : Bool) :
    ((writeBit blocks id used).1 k).isSome = true :=
  isSome_update stored _ _

/-! ## Tokens -/

/-- How far a task is in minting an id. -/
inductive Minting
  | idle
  | locked (minter : IdMinter)
  | bumped (id maxBlock : ℕ)
  /-- The new block of the id is written, the number of blocks not yet. -/
  | written (id maxBlock : ℕ)
  | marked (id : ℕ)

/-- What a task holds and knows between two operations. -/
structure Token where
  barrier : Option Unit
  owes : Option ℕ
  settle : Option Bool
  announce : Option ℕ
  refill : Option Unit
  /-- The id it popped. -/
  claim : Option ℕ
  /-- The minter as it last read it. -/
  bound : Option IdMinter
  minting : Minting

variable (reliable : Prop)

def Token.pre (token : Token) : Op → Prop
  | .lockBarrier => token.barrier = none
  | .unlockBarrier => token.barrier = some ()
  | .push id =>
      (∃ m, token.bound = some m ∧ id < m.nextId ∧ id / blockSizeIds ≤ m.maxBlock) ∨
        token.announce = some id
  | .lockMinter => token.minting = .idle
  | .storeNextId nextId =>
      ∃ m, token.minting = .locked m ∧ nextId = m.nextId + 1 ∧ m.nextId < u32Max
  | .storeMaxBlock maxBlock => ∃ id max, token.minting = .written id max ∧ maxBlock = max + 1
  | .unlockMinter =>
      (∃ id, token.minting = .marked id) ∨ ¬ reliable ∧ ∃ id max, token.minting = .bumped id max
  | .rmw id true =>
      token.owes = none ∧ token.settle = none ∧
        (token.minting = .idle ∧ token.claim = some id ∨
          ∃ max, token.minting = .bumped id max ∧ id / blockSizeIds ≤ max)
  | .rmw id false =>
      token.settle = none ∧ token.announce = none ∧ ∃ m, token.bound = some m ∧ id < m.nextId
  | .writeBlock blockId =>
      ∃ id max, token.minting = .bumped id max ∧ blockId = id / blockSizeIds ∧ blockId = max + 1
  | .fetchAddTotal => token.settle = some true
  | .fetchSubTotal => token.settle = some false
  | .lockRefill => token.refill = none
  | .unlockRefill => token.refill = some ()
  | .returns (.nextId (.ok id)) => token.owes = some id
  | _ => True

/-- The stage after the bit of the minted id is set. -/
def Minting.mark (id : ℕ) : Minting → Minting
  | .bumped _ _ => .marked id
  | stage => stage

theorem Minting.mark_ne_idle {stage : Minting} (id : ℕ) (minting : stage ≠ .idle) :
    stage.mark id ≠ .idle := by
  cases stage with
  | idle => exact absurd rfl minting
  | _ => nofun

/-- A minter as the locks give it out. -/
def IdMinter.Sane (m : IdMinter) : Prop :=
  m.nextId ≤ u32Max ∧ m.maxBlock < u32Max ∧
    (reliable → m.nextId ≤ (m.maxBlock + 1) * blockSizeIds)

def Token.post (token : Token) : (o : Op) → o.Res → Token → Prop
  | .lockBarrier, _, token' => token' = { token with barrier := some () }
  | .unlockBarrier, _, token' => token' = { token with barrier := none }
  | .storeHasFreeIds value, _, token' =>
      token' = { token with announce := if value then none else token.announce }
  | .pop, id, token' => token' = { token with claim := id }
  | .readMinter, m, token' => token' = { token with bound := some m } ∧ m.Sane reliable
  | .lockMinter, m, token' => token' = { token with minting := .locked m } ∧ m.Sane reliable
  | .storeNextId _, _, token' =>
      ∀ m, token.minting = .locked m → token' = { token with minting := .bumped m.nextId m.maxBlock }
  | .storeMaxBlock maxBlock, _, token' =>
      ∀ id max, token.minting = .written id max →
        token' = { token with minting := .bumped id maxBlock }
  | .unlockMinter, _, token' => token' = { token with minting := .idle }
  | .rmw id used, outcome, token' =>
      match outcome with
      | none => token' = token ∧ ¬ reliable
      | some false => token' = token ∧ (used = true → token.minting = .idle)
      | some true =>
          if used then
            token' = { token with
              owes := some id, settle := some true, minting := token.minting.mark id }
          else token' = { token with settle := some false, announce := some id }
  | .writeBlock _, written, token' =>
      if written then
        ∀ id max, token.minting = .bumped id max → token' = { token with minting := .written id max }
      else token' = token ∧ ¬ reliable
  | .fetchAddTotal, _, token' | .fetchSubTotal, _, token' => token' = { token with settle := none }
  | .lockRefill, _, token' => token' = { token with refill := some () }
  | .unlockRefill, _, token' => token' = { token with refill := none }
  | .returns (.nextId (.ok _)), _, token' => token' = { token with owes := none }
  | _, _, token' => token' = token

def protocol : Protocol interface Panic Token where
  pre token o := token.pre reliable o
  post token o r token' := token.post reliable o r token'
  mayPanic _ _ := True

/-! ## The invariant -/

section Invariant

variable {τ : Type}

/-- Below the counter that is given out, and in a block that exists. -/
def State.Covers (s : State τ) (id : ℕ) : Prop :=
  id < s.counter ∧ id / blockSizeIds ≤ s.idMinter.maxBlock

def Minting.Fits (s : State τ) : Minting → Prop
  | .idle => True
  | .locked m => s.minterLock = some m.nextId ∧ s.idMinter = m
  | .bumped id max =>
      s.minterLock = some id ∧ s.idMinter = ⟨id + 1, max⟩ ∧ s.used id = false ∧ id < u32Max
  | .written id max =>
      s.minterLock = some id ∧ s.idMinter = ⟨id + 1, max⟩ ∧ s.used id = false ∧ id < u32Max ∧
        id / blockSizeIds = max + 1 ∧ (s.blocks (max + 1)).isSome = true
  | .marked id =>
      s.minterLock = some id ∧ s.idMinter.nextId = id + 1 ∧ s.used id = true

/-- What a task has read is still true of a map that has only grown. -/
structure Token.Knows (s : State τ) (token : Token) : Prop where
  claim : ∀ id, token.claim = some id → s.Covers id
  announce : ∀ id, token.announce = some id → s.Covers id
  bound : ∀ m, token.bound = some m → m.nextId ≤ s.counter ∧ m.maxBlock ≤ s.idMinter.maxBlock

structure Token.Fits (s : State τ) (token : Token) : Prop where
  knows : token.Knows s
  minting : token.minting.Fits s

/-- At most one task mints. -/
def Token.Apart (token other : Token) : Prop :=
  token.minting = .idle ∨ other.minting = .idle

/-- The number of bits that are set below the counter. -/
def State.usedCount (s : State τ) : ℕ := ((Finset.range s.idMinter.nextId).filter (s.used ·)).card

/-- What outstanding changes will add to the total. -/
def balance (unsettled : List (τ × Bool)) : ℤ :=
  (unsettled.map fun entry => if entry.2 then 1 else -1).sum

/-- What the map satisfies by itself. -/
structure State.Sound (reliable : Prop) (s : State τ) : Prop where
  taken : ∀ id, s.taken id = s.freed id + if s.used id then 1 else 0
  returned : ∀ id, s.taken id = s.returned id + s.owed.countP (·.2 = id)
  total : s.totalUsed = BitVec.ofInt 64 (s.usedCount - balance s.unsettled)
  used_lt : ∀ id, s.used id = true → id < s.idMinter.nextId ∧ id / blockSizeIds ≤ s.idMinter.maxBlock
  listed : ∀ id ∈ s.fastFreeList, s.Covers id
  counter_le : s.counter ≤ s.idMinter.nextId
  nextId_le : s.idMinter.nextId ≤ u32Max
  maxBlock_lt : s.idMinter.maxBlock < u32Max
  stored : ∀ k ≤ s.idMinter.maxBlock, (s.blocks k).isSome = true
  room : reliable → s.minterLock = none →
    s.idMinter.nextId ≤ (s.idMinter.maxBlock + 1) * blockSizeIds

structure Inv (reliable : Prop) (s : State τ) (tokens : τ → Token) : Prop where
  sound : s.Sound reliable
  readers : Ledger s.readers fun task => (tokens task).barrier
  owed : Ledger s.owed fun task => (tokens task).owes
  unsettled : Ledger s.unsettled fun task => (tokens task).settle
  unannounced : Ledger s.unannounced fun task => (tokens task).announce
  refill : Ledger s.refillLock fun task => (tokens task).refill
  minter : s.minterLock ≠ none → ∃ task, (tokens task).minting ≠ .idle
  consistent : Protocol.Consistent (Token.Fits s) Token.Apart tokens

/-! ## Soundness -/

variable {reliable : Prop} {s s' : State τ} {tokens : τ → Token} {token token' : Token} {task : τ} {id : ℕ}

theorem State.counter_of_locked {n : ℕ} (locked : s.minterLock = some n) : s.counter = n := by
  rw [counter, locked]
  rfl

theorem State.counter_of_unlocked (unlocked : s.minterLock = none) :
    s.counter = s.idMinter.nextId := by
  rw [counter, unlocked]
  rfl

theorem State.Covers.mono (covers : s.Covers id) (counter : s.counter ≤ s'.counter)
    (maxBlock : s.idMinter.maxBlock ≤ s'.idMinter.maxBlock) : s'.Covers id :=
  ⟨covers.1.trans_le counter, covers.2.trans maxBlock⟩

theorem Token.Knows.mono (knows : token.Knows s) (counter : s.counter ≤ s'.counter)
    (maxBlock : s.idMinter.maxBlock ≤ s'.idMinter.maxBlock) : token.Knows s' where
  claim := fun id claimed => (knows.claim id claimed).mono counter maxBlock
  announce := fun id held => (knows.announce id held).mono counter maxBlock
  bound := fun m read =>
    ⟨(knows.bound m read).1.trans counter, (knows.bound m read).2.trans maxBlock⟩

theorem Token.Fits.minting_idle (fits : token.Fits s) (unlocked : s.minterLock = none) :
    token.minting = .idle := by
  have minting := fits.minting
  cases stage : token.minting with
  | idle => rfl
  | _ =>
    rw [stage] at minting
    cases unlocked.symm.trans minting.1

/-- A change of the bitmap elsewhere leaves a mint alone. -/
theorem Minting.Fits.of_used {stage : Minting} (fits : stage.Fits s)
    (idMinter : s'.idMinter = s.idMinter) (lock : s'.minterLock = s.minterLock)
    (stored : ∀ k, (s.blocks k).isSome = true → (s'.blocks k).isSome = true)
    (used : ∀ id, s.minterLock = some id → s'.used id = s.used id) : stage.Fits s' := by
  cases stage with
  | idle => trivial
  | locked m => exact ⟨lock.trans fits.1, idMinter.trans fits.2⟩
  | bumped id max =>
    obtain ⟨locked, minter, clear, small⟩ := fits
    exact ⟨lock.trans locked, idMinter.trans minter, (used id locked).trans clear, small⟩
  | written id max =>
    obtain ⟨locked, minter, clear, small, next, block⟩ := fits
    exact ⟨lock.trans locked, idMinter.trans minter, (used id locked).trans clear, small, next,
      stored _ block⟩
  | marked id =>
    obtain ⟨locked, minter, set⟩ := fits
    exact ⟨lock.trans locked, by rw [idMinter, minter], (used id locked).trans set⟩

theorem Token.Fits.frame (fits : token.Fits s) (idMinter : s'.idMinter = s.idMinter)
    (lock : s'.minterLock = s.minterLock) (blocks : s'.blocks = s.blocks) : token.Fits s' := by
  have counter : s'.counter = s.counter := by rw [counter, counter, idMinter, lock]
  exact ⟨fits.knows.mono counter.ge (by rw [idMinter]),
    fits.minting.of_used idMinter lock (fun k => by rw [blocks]; exact (·)) fun id _ => by
      rw [used, used, blocks]⟩

variable (inv : Inv reliable s tokens)
include inv

theorem Inv.stage {stage : Minting} (here : (tokens task).minting = stage) :
    stage.Fits s :=
  here ▸ (inv.consistent.each task).minting

/-- A task moves on within its stage of minting. -/
theorem Inv.move [DecidableEq τ]
    (stable : ∀ token : Token, token.Fits s → token.Fits s') (knows : token'.Knows s)
    (stage : token'.minting = (tokens task).minting) :
    Protocol.Consistent (Token.Fits s') Token.Apart (update tokens task token') := by
  refine inv.consistent.update rfl (stable _ ⟨knows, ?_⟩) fun other fits apart apart' =>
    ⟨stable other fits, by rwa [Token.Apart, stage], by rwa [Token.Apart, stage]⟩
  exact inv.stage stage.symm

variable [DecidableEq τ]

theorem Inv.minter_update
    (keeps : (tokens task).minting ≠ .idle → token'.minting ≠ .idle) (locked : s.minterLock ≠ none) :
    ∃ other, (update tokens task token' other).minting ≠ .idle :=
  Protocol.exists_update (fun token : Token => token.minting ≠ .idle) (inv.minter locked) keeps

/-- The minting task moves on to another stage. -/
theorem Inv.moveMinter (minting : (tokens task).minting ≠ .idle)
    (own : token'.Fits s') (counter : s.counter ≤ s'.counter)
    (maxBlock : s.idMinter.maxBlock ≤ s'.idMinter.maxBlock) :
    Protocol.Consistent (Token.Fits s') Token.Apart (update tokens task token') :=
  inv.consistent.update rfl own fun other fits apart apart' => by
    have idle := apart.resolve_left minting
    exact ⟨⟨fits.knows.mono counter maxBlock, by rw [idle]; trivial⟩, .inr idle, .inl idle⟩

/-! ### The counts -/

omit inv

omit [DecidableEq τ] in
theorem State.usedCount_congr (s s' : State τ) (nextId : s'.idMinter.nextId = s.idMinter.nextId)
    (used : ∀ id, s'.used id = s.used id) : s'.usedCount = s.usedCount := by
  simp only [usedCount, nextId, used]

omit [DecidableEq τ] in
theorem State.usedCount_set (s s' : State τ) (below : id < s.idMinter.nextId)
    (clear : s.used id = false) (nextId : s'.idMinter.nextId = s.idMinter.nextId)
    (used : ∀ other, s'.used other = if other = id then true else s.used other) :
    s'.usedCount = s.usedCount + 1 := by
  have absent : id ∉ (Finset.range s.idMinter.nextId).filter (s.used ·) := by simp [clear]
  rw [usedCount, usedCount, ← Finset.card_insert_of_notMem absent]
  congr 1
  ext other
  simp only [used, nextId]
  by_cases here : other = id
  · simp [here, below]
  · simp [here]

omit [DecidableEq τ] in
theorem balance_append (unsettled : List (τ × Bool)) (task : τ) (value : Bool) :
    balance (unsettled ++ [(task, value)]) = balance unsettled + if value then 1 else -1 := by
  simp [balance]

theorem balance_erase {unsettled : List (τ × Bool)} {value : Bool}
    (mem : (task, value) ∈ unsettled) :
    balance (unsettled.erase (task, value)) = balance unsettled - if value then 1 else -1 := by
  have same := ((perm_cons_erase mem).map fun entry => if entry.2 then (1 : ℤ) else -1).sum_eq
  rw [map_cons, sum_cons] at same
  rw [balance, balance, same, add_sub_cancel_left]

theorem countP_erase_owed {owed : List (τ × ℕ)} (mem : (task, id) ∈ owed) (other : ℕ) :
    owed.countP (·.2 = other) =
      (owed.erase (task, id)).countP (·.2 = other) + if other = id then 1 else 0 := by
  rw [(perm_cons_erase mem).countP_eq, countP_cons]
  simp [eq_comm]

/-- What the ledgers hold. -/
def State.ledgers (s : State τ) := (s.readers, s.owed, s.unsettled, s.unannounced, s.refillLock)

def Token.ledgers (token : Token) := (token.barrier, token.owes, token.settle, token.announce, token.refill)

/-- A step of a task: what is not said to change stays as it is. -/
structure Inv.Step (inv : Inv reliable s tokens) (task : τ) (s' : State τ) (token' : Token) : Prop where
  sound : s'.Sound reliable := by exact { inv.sound with }
  readers : Ledger s'.readers fun t => (update tokens task token' t).barrier := by exact inv.readers.same rfl
  owed : Ledger s'.owed fun t => (update tokens task token' t).owes := by exact inv.owed.same rfl
  unsettled : Ledger s'.unsettled fun t => (update tokens task token' t).settle := by
    exact inv.unsettled.same rfl
  unannounced : Ledger s'.unannounced fun t => (update tokens task token' t).announce := by
    exact inv.unannounced.same rfl
  refill : Ledger s'.refillLock fun t => (update tokens task token' t).refill := by exact inv.refill.same rfl
  minter : s'.minterLock ≠ none → ∃ t, (update tokens task token' t).minting ≠ .idle := by
    exact inv.minter_update (·)
  consistent : Protocol.Consistent (Token.Fits s') Token.Apart (update tokens task token') := by
    exact inv.move (fun _ fits => fits.frame rfl rfl rfl) { (inv.consistent.each task).knows with } rfl

include inv

theorem Inv.step (step : inv.Step task s' token') :
    Inv reliable s' (update tokens task token') :=
  { step with }

/-- A step that leaves the ledgers alone. -/
theorem Inv.moved (state : s'.ledgers = s.ledgers) (token : token'.ledgers = (tokens task).ledgers)
    (sound : s'.Sound reliable)
    (minter : s'.minterLock ≠ none → ∃ t, (update tokens task token' t).minting ≠ .idle)
    (consistent : Protocol.Consistent (Token.Fits s') Token.Apart (update tokens task token')) :
    Inv reliable s' (update tokens task token') := by
  simp only [ledgers, Token.ledgers, Prod.mk.injEq] at state token
  obtain ⟨readers, owed, unsettled, unannounced, refill⟩ := state
  obtain ⟨barrier, owes, settle, announce, refill'⟩ := token
  exact ⟨sound, readers ▸ inv.readers.same barrier, owed ▸ inv.owed.same owes,
    unsettled ▸ inv.unsettled.same settle, unannounced ▸ inv.unannounced.same announce,
    refill ▸ inv.refill.same refill', minter, consistent⟩

/-! ### Operations outside the bitmap and the minter -/

theorem Inv.storeHasFreeIds (value : Bool) :
    Inv reliable (s.storeHasFreeIds task value) (update tokens task
      { tokens task with announce := if value then none else (tokens task).announce }) :=
  inv.step {
    unannounced := by
      cases value with
      | true => exact inv.unannounced.filter rfl
      | false => exact inv.unannounced.same rfl
    consistent := by
      refine inv.move (fun _ fits => fits.frame rfl rfl rfl) ?_ rfl
      cases value with
      | true => exact { (inv.consistent.each task).knows with announce := nofun }
      | false => exact { (inv.consistent.each task).knows with } }

theorem Inv.pop :
    Inv reliable { s with fastFreeList := s.fastFreeList.tail }
      (update tokens task { tokens task with claim := s.fastFreeList.head? }) :=
  inv.moved rfl rfl
    { inv.sound with listed := fun id mem => inv.sound.listed id (mem_of_mem_tail mem) }
    (inv.minter_update (·)) (inv.move (fun _ fits => fits.frame rfl rfl rfl)
      { (inv.consistent.each task).knows with
        claim := fun id popped => inv.sound.listed id (mem_of_head? popped) } rfl)

omit [DecidableEq τ] in
theorem Inv.push (pre : (tokens task).pre reliable (.push id)) :
    Inv reliable { s with fastFreeList := s.fastFreeList ++ [id] } tokens := by
  have knows := (inv.consistent.each task).knows
  have covers : s.Covers id := by
    obtain ⟨m, bound, below, block⟩ | announced := pre
    · exact ⟨below.trans_le (knows.bound m bound).1, block.trans (knows.bound m bound).2⟩
    · exact knows.announce id announced
  refine { inv with sound := { inv.sound with listed := ?_ }, consistent := ?_ }
  · intro other mem
    obtain mem | same := mem_append.mp mem
    · exact inv.sound.listed other mem
    · rw [mem_singleton.mp same]
      exact covers
  · exact inv.consistent.mono fun _ fits => fits.frame rfl rfl rfl

theorem Inv.readMinter (unlocked : s.minterLock = none) :
    Inv reliable s (update tokens task { tokens task with bound := some s.idMinter }) :=
  inv.moved rfl rfl inv.sound (inv.minter_update (·)) <| by
    refine inv.move (fun _ fits => fits) { (inv.consistent.each task).knows with bound := ?_ } rfl
    intro m read
    cases read
    exact ⟨(counter_of_unlocked unlocked).ge, le_rfl⟩

omit inv in
theorem State.Sound.settled {value : Bool} (sound : s.Sound reliable)
    (mem : (task, value) ∈ s.unsettled) :
    s.totalUsed + BitVec.ofInt 64 (if value then 1 else -1) =
      BitVec.ofInt 64 (s.usedCount - balance (s.unsettled.erase (task, value))) := by
  rw [sound.total, ← BitVec.ofInt_add, balance_erase mem]
  congr 1
  omega

theorem Inv.settle {value : Bool}
    (held : (tokens task).settle = some value) {totalUsed : BitVec 64}
    (total : totalUsed = s.totalUsed + BitVec.ofInt 64 (if value then 1 else -1)) :
    Inv reliable { s with totalUsed, unsettled := s.unsettled.erase (task, value) }
      (update tokens task { tokens task with settle := none }) :=
  inv.step {
    sound := { inv.sound with
      total := total.trans (inv.sound.settled ((inv.unsettled.mem_iff task value).mpr held)) }
    unsettled := inv.unsettled.erase held rfl }

theorem Inv.returnsId (held : (tokens task).owes = some id) :
    Inv reliable (s.returns task (.nextId (.ok id)))
      (update tokens task { tokens task with owes := none }) :=
  inv.step {
    sound := { inv.sound with
      returned := by
        intro other
        have mem := (inv.owed.mem_iff task id).mpr held
        have counts := inv.sound.returned other
        rw [countP_erase_owed mem] at counts
        change s.taken other = update s.returned id (s.returned id + 1) other +
          (s.owed.erase (task, id)).countP _
        by_cases here : other = id
        · subst here
          rw [update_self, counts, if_pos rfl]
          omega
        · rw [update_of_ne here, counts, if_neg here]
          omega }
    owed := inv.owed.erase held rfl }

/-! ### The minter -/

omit inv in
omit [DecidableEq τ] in
theorem State.Sound.sane (sound : s.Sound reliable) (unlocked : s.minterLock = none) :
    s.idMinter.Sane reliable :=
  ⟨sound.nextId_le, sound.maxBlock_lt, fun r => sound.room r unlocked⟩

theorem Inv.lockMinter (unlocked : s.minterLock = none) :
    Inv reliable { s with minterLock := some s.idMinter.nextId }
      (update tokens task { tokens task with minting := .locked s.idMinter }) := by
  have counter : s.counter = s.idMinter.nextId := counter_of_unlocked unlocked
  have idle (other : τ) := (inv.consistent.each other).minting_idle unlocked
  have knows (other : τ) : (tokens other).Knows { s with minterLock := some s.idMinter.nextId } :=
    (inv.consistent.each other).knows.mono counter.le le_rfl
  refine inv.moved rfl rfl { inv.sound with
      listed := fun id mem => (inv.sound.listed id mem).mono counter.le le_rfl
      counter_le := le_rfl
      room := nofun }
    (fun _ => ⟨task, by rw [update_self]; nofun⟩)
    (inv.consistent.replace ⟨{ knows task with }, rfl, rfl⟩ fun other _ =>
      ⟨⟨knows other, ?_⟩, .inr (idle other), .inl (idle other)⟩)
  rw [idle other]
  trivial

theorem Inv.storeNextId {m : IdMinter}
    (locked : (tokens task).minting = .locked m) (small : m.nextId < u32Max) :
    Inv reliable (s.setMinter { s.idMinter with nextId := m.nextId + 1 })
      (update tokens task
        { tokens task with minting := .bumped m.nextId m.maxBlock }) := by
  have fits := inv.consistent.each task
  obtain ⟨lock, rfl⟩ := inv.stage locked
  have clear : s.used s.idMinter.nextId = false := by
    by_contra set
    exact (inv.sound.used_lt _ (Bool.not_eq_false _ ▸ set)).1.false
  set s' := s.setMinter { s.idMinter with nextId := s.idMinter.nextId + 1 } with s'_def
  have counter : s'.counter = s.counter := by
    rw [counter_of_locked lock, counter_of_locked (s := s') lock]
  have count : s'.usedCount = s.usedCount := by
    change ((Finset.range (s.idMinter.nextId + 1)).filter (s.used ·)).card = _
    rw [Finset.range_add_one, Finset.filter_insert, if_neg (by simp [clear])]
    rfl
  exact inv.moved rfl rfl { inv.sound with
      total := by rw [count]; exact inv.sound.total
      used_lt := fun id set => ⟨(inv.sound.used_lt id set).1.trans (lt_succ_self _),
        (inv.sound.used_lt id set).2⟩
      listed := fun id mem => (inv.sound.listed id mem).mono counter.ge le_rfl
      counter_le := counter.le.trans (inv.sound.counter_le.trans (le_succ _))
      nextId_le := small
      room := fun _ unlocked => by cases lock.symm.trans unlocked }
    (inv.minter_update fun _ => nofun) (inv.moveMinter (by rw [locked]; nofun)
      ⟨{ fits.knows.mono counter.ge le_rfl with }, lock, rfl, clear, small⟩ counter.ge le_rfl)

theorem Inv.storeMaxBlock {max : ℕ}
    (written : (tokens task).minting = .written id max) :
    Inv reliable (s.setMinter { s.idMinter with maxBlock := max + 1 })
      (update tokens task { tokens task with minting := .bumped id (max + 1) }) := by
  have fits := inv.consistent.each task
  obtain ⟨lock, minter, clear, small, block, stored⟩ := inv.stage written
  set s' := s.setMinter { s.idMinter with maxBlock := max + 1 } with s'_def
  have counter : s'.counter = s.counter := by
    rw [counter_of_locked lock, counter_of_locked (s := s') lock]
  have more : s.idMinter.maxBlock ≤ s'.idMinter.maxBlock := by
    rw [minter]
    exact le_succ max
  exact inv.moved rfl rfl { inv.sound with
      used_lt := fun id set => ⟨(inv.sound.used_lt id set).1, (inv.sound.used_lt id set).2.trans more⟩
      listed := fun id mem => (inv.sound.listed id mem).mono counter.ge more
      maxBlock_lt := block.ge.trans_lt ((div_le_self _ _).trans_lt small)
      stored := fun k bound => by
        obtain rfl | older := eq_or_lt_of_le bound
        · exact stored
        · exact inv.sound.stored k (by rw [minter]; exact le_of_lt_succ older)
      room := fun _ unlocked => by cases lock.symm.trans unlocked }
    (inv.minter_update fun _ => nofun) (inv.moveMinter (by rw [written]; nofun)
      ⟨{ fits.knows.mono counter.ge more with }, lock, by simp [setMinter, minter, s'_def],
        clear, small⟩ counter.ge more)

omit inv in
omit [DecidableEq τ] in
/-- Every bit that is set lies in an older block. -/
theorem State.Sound.used_newBlock (sound : s.Sound reliable) {blockId : ℕ}
    (block : blockId = s.idMinter.maxBlock + 1) (other : ℕ) :
    (s.newBlock blockId).used other = s.used other := by
  rw [used, newBlock, bitSet_newBlock]
  split_ifs with here
  · by_contra set
    have old := (sound.used_lt other (by simpa using set)).2
    rw [here, block] at old
    exact not_succ_le_self _ old
  · rfl

theorem Inv.writeBlock {max : ℕ}
    (bumped : (tokens task).minting = .bumped id max) (block : id / blockSizeIds = max + 1) :
    Inv reliable (s.newBlock (id / blockSizeIds))
      (update tokens task { tokens task with minting := .written id max }) := by
  have fits := inv.consistent.each task
  obtain ⟨lock, minter, clear, small⟩ := inv.stage bumped
  have used := inv.sound.used_newBlock (show id / blockSizeIds = _ by rw [minter, block])
  have count : (s.newBlock (id / blockSizeIds)).usedCount = s.usedCount :=
    s.usedCount_congr _ rfl used
  exact inv.moved rfl rfl { inv.sound with
      taken := fun other => by rw [used]; exact inv.sound.taken other
      total := by rw [count]; exact inv.sound.total
      used_lt := fun other set => inv.sound.used_lt other (used other ▸ set)
      stored := fun k bound => isSome_update (inv.sound.stored k bound) _ _ }
    (inv.minter_update fun _ => nofun) (inv.moveMinter (by rw [bumped]; nofun)
      ⟨{ fits.knows with }, lock, minter, (used id).trans clear, small, block, by
        simp [newBlock, block]⟩ le_rfl le_rfl)

theorem Inv.unlockMinter (pre : (tokens task).pre reliable .unlockMinter) :
    Inv reliable { s with minterLock := none }
      (update tokens task { tokens task with minting := .idle }) := by
  have fits := inv.consistent.each task
  set s' : State τ := { s with minterLock := none } with s'_def
  have counter : s.counter ≤ s'.counter := by
    exact inv.sound.counter_le
  have minting : (tokens task).minting ≠ .idle := by
    obtain ⟨id, marked⟩ | ⟨_, id, max, bumped⟩ := pre
    · rw [marked]
      nofun
    · rw [bumped]
      nofun
  refine inv.moved rfl rfl { inv.sound with
      listed := fun id mem => (inv.sound.listed id mem).mono counter le_rfl
      counter_le := le_rfl
      room := fun r _ => ?_ }
    (fun locked => absurd rfl locked)
    (inv.moveMinter minting ⟨{ fits.knows.mono counter le_rfl with }, trivial⟩ counter le_rfl)
  obtain ⟨id, marked⟩ | ⟨unreliable, _⟩ := pre
  · obtain ⟨_, next, set⟩ := inv.stage marked
    rw [next]
    exact (div_lt_iff_lt_mul (by decide)).mp (lt_succ_of_le (inv.sound.used_lt id set).2)
  · exact absurd r unreliable

/-! ### The bitmap -/

section

omit [DecidableEq τ] inv

theorem State.rmw_changed (s : State τ) (task : τ) (id : ℕ) (used : Bool) :
    (s.rmw task id used).2 = (s.used id != used) :=
  writeBit_changed s.blocks id used

theorem State.used_rmw (s : State τ) (task : τ) (id : ℕ) (used : Bool) (other : ℕ) :
    (s.rmw task id used).1.used other = if other = id then used else s.used other :=
  bitSet_writeBit s.blocks id used other

theorem State.rmw_of_same {id : ℕ} {used : Bool} (same : s.used id = used) :
    (s.rmw task id used).1 = { s with blocks := (writeBit s.blocks id used).1 } := by
  have unchanged : (writeBit s.blocks id used).2 = false :=
    (s.rmw_changed task id used).trans (by rw [same, bne_self_eq_false])
  simp [rmw, unchanged]

theorem State.rmw_of_ne {id : ℕ} {used : Bool} (ne : s.used id ≠ used) :
    (s.rmw task id used).1 =
      { s.noteChange task id used with blocks := (writeBit s.blocks id used).1 } := by
  have changed : (writeBit s.blocks id used).2 = true :=
    (s.rmw_changed task id used).trans (bne_iff_ne.mpr ne)
  simp [rmw, changed]

end

include inv

omit [DecidableEq τ] in
/-- A read-modify-write that finds the bit as it should be. -/
theorem Inv.rmw_of_same {used : Bool} (same : s.used id = used) :
    Inv reliable (s.rmw task id used).1 tokens := by
  have used' (other : ℕ) : (s.rmw task id used).1.used other = s.used other := by
    rw [used_rmw]
    split_ifs with here
    · rw [here, same]
    · rfl
  have count := State.usedCount_congr s (s.rmw task id used).1 (by rw [State.rmw_of_same same]) used'
  rw [State.rmw_of_same same] at used' count ⊢
  exact { inv with
    sound := { inv.sound with
      taken := fun other => by rw [used']; exact inv.sound.taken other
      total := by rw [count]; exact inv.sound.total
      used_lt := fun other set => inv.sound.used_lt other (used' other ▸ set)
      stored := fun k bound => isSome_writeBit (inv.sound.stored k bound) id used }
    consistent := inv.consistent.mono fun token fits =>
      ⟨{ fits.knows with }, fits.minting.of_used rfl rfl (fun _ block => isSome_writeBit block id used)
        fun other _ => used' other⟩ }

/-- A bit is set: the id was popped, or it is the id that the task mints. -/
theorem Inv.rmw_set (clear : s.used id = false)
    (pre : (tokens task).pre reliable (.rmw id true)) :
    Inv reliable (s.rmw task id true).1 (update tokens task
      { tokens task with
        owes := some id, settle := some true, minting := (tokens task).minting.mark id }) := by
  obtain ⟨owes, settle, allowed⟩ := pre
  have fits := inv.consistent.each task
  have ne : s.used id ≠ true := by rw [clear]; nofun
  have nextId : (s.rmw task id true).1.idMinter.nextId = s.idMinter.nextId := by
    rw [rmw_of_ne ne]
    rfl
  have used := s.used_rmw task id true
  have count (below : id < s.idMinter.nextId) := usedCount_set s _ below clear nextId used
  rw [rmw_of_ne ne] at used count ⊢
  have covered : id < s.idMinter.nextId ∧ id / blockSizeIds ≤ s.idMinter.maxBlock := by
    obtain ⟨_, claimed⟩ | ⟨max, bumped, block⟩ := allowed
    · exact ⟨(fits.knows.claim id claimed).1.trans_le inv.sound.counter_le,
        (fits.knows.claim id claimed).2⟩
    · obtain ⟨_, minter, _⟩ := inv.stage bumped
      rw [minter]
      exact ⟨lt_succ_self id, block⟩
  refine inv.step {
    sound := { inv.sound with
      taken := fun other => ?_
      returned := fun other => ?_
      total := ?_
      used_lt := fun other set => ?_
      stored := fun k bound => isSome_writeBit (inv.sound.stored k bound) id _ }
    owed := inv.owed.append owes rfl
    unsettled := inv.unsettled.append settle rfl
    minter := inv.minter_update (Minting.mark_ne_idle id)
    consistent := ?_ }
  · have taken := inv.sound.taken other
    rw [used]
    change update s.taken id (s.taken id + 1) other = s.freed other + _
    by_cases here : other = id
    · subst here
      rw [update_self, taken, clear, if_pos rfl]
      rfl
    · rw [update_of_ne here, taken, if_neg here]
  · have returned := inv.sound.returned other
    change update s.taken id (s.taken id + 1) other =
      s.returned other + (s.owed ++ [(task, id)]).countP _
    by_cases here : other = id
    · subst here
      rw [returned]
      simp [add_assoc]
    · rw [update_of_ne here, returned]
      simp [Ne.symm here]
  · change s.totalUsed = BitVec.ofInt 64 (_ - balance (s.unsettled ++ [(task, true)]))
    rw [inv.sound.total, balance_append, if_pos rfl]
    congr 1
    omega
  · rw [used] at set
    split_ifs at set with here
    · rw [here]
      exact covered
    · exact inv.sound.used_lt other set
  · obtain ⟨idle, claimed⟩ | ⟨max, bumped, _⟩ := allowed
    · -- the id is below the counter, so no minted id is touched
      rw [idle]
      refine inv.move (fun token fits => ⟨{ fits.knows with }, ?_⟩) { fits.knows with } idle.symm
      refine fits.minting.of_used rfl rfl (fun _ block => isSome_writeBit block id _) fun minted locked => ?_
      rw [used, if_neg]
      rintro rfl
      have counter := ((inv.consistent.each task).knows.claim minted claimed).1
      rw [counter_of_locked locked] at counter
      exact counter.false
    · obtain ⟨lock, minter, _⟩ := inv.stage bumped
      rw [bumped]
      exact inv.moveMinter (by rw [bumped]; nofun) ⟨{ fits.knows with }, lock,
        congrArg IdMinter.nextId minter, by rw [used, if_pos rfl]⟩ le_rfl le_rfl

/-- A bit is cleared. -/
theorem Inv.rmw_clear (set : s.used id = true)
    (pre : (tokens task).pre reliable (.rmw id false)) :
    Inv reliable (s.rmw task id false).1 (update tokens task
      { tokens task with settle := some false, announce := some id }) := by
  obtain ⟨settle, announce, m, bound, below⟩ := pre
  have fits := inv.consistent.each task
  have ne : s.used id ≠ false := by rw [set]; nofun
  have nextId : s.idMinter.nextId = (s.rmw task id false).1.idMinter.nextId := by
    rw [rmw_of_ne ne]
    rfl
  have used := s.used_rmw task id false
  have count := usedCount_set (s.rmw task id false).1 s
    (nextId ▸ (inv.sound.used_lt id set).1) (by rw [used, if_pos rfl]) nextId fun other => by
      rw [used]
      split_ifs with here
      · rw [here, set]
      · rfl
  rw [rmw_of_ne ne] at used count ⊢
  have covers : s.Covers id :=
    ⟨below.trans_le (fits.knows.bound m bound).1, (inv.sound.used_lt id set).2⟩
  refine inv.step {
    sound := { inv.sound with
      taken := fun other => ?_
      total := ?_
      used_lt := fun other set => ?_
      stored := fun k bound => isSome_writeBit (inv.sound.stored k bound) id _ }
    unsettled := inv.unsettled.append settle rfl
    unannounced := inv.unannounced.append announce rfl
    consistent := ?_ }
  · have taken := inv.sound.taken other
    rw [used]
    change s.taken other = update s.freed id (s.freed id + 1) other + _
    by_cases here : other = id
    · subst here
      rw [update_self, taken, set, if_pos rfl, if_pos rfl]
      rfl
    · rw [update_of_ne here, taken, if_neg here]
  · change s.totalUsed = BitVec.ofInt 64 (_ - balance (s.unsettled ++ [(task, false)]))
    rw [inv.sound.total, balance_append, count]
    congr 1
    simp only [Bool.false_eq_true, if_false]
    omega
  · rw [used] at set
    split_ifs at set with here
    exact inv.sound.used_lt other set
  · refine inv.move (fun token fits => ⟨{ fits.knows with }, ?_⟩)
      { fits.knows with announce := fun other same => Option.some.inj same ▸ covers } rfl
    refine fits.minting.of_used rfl rfl (fun _ block => isSome_writeBit block id _) fun minted locked => ?_
    rw [used, if_neg]
    rintro rfl
    have counter := covers.1
    rw [counter_of_locked locked] at counter
    exact counter.false

omit [DecidableEq τ] in
theorem Inv.still (sound : s'.Sound reliable)
    (idMinter : s'.idMinter = s.idMinter) (lock : s'.minterLock = s.minterLock)
    (blocks : s'.blocks = s.blocks) (state : s'.ledgers = s.ledgers) : Inv reliable s' tokens := by
  simp only [ledgers, Prod.mk.injEq] at state
  obtain ⟨readers, owed, unsettled, unannounced, refill⟩ := state
  exact ⟨sound, readers ▸ inv.readers, owed ▸ inv.owed, unsettled ▸ inv.unsettled,
    unannounced ▸ inv.unannounced, refill ▸ inv.refill, lock ▸ inv.minter,
    inv.consistent.mono fun _ fits => fits.frame idMinter lock blocks⟩

omit [DecidableEq τ] in
theorem Inv.tick : Inv reliable s.tick tokens :=
  inv.still { inv.sound with } rfl rfl rfl rfl

omit inv

theorem protocol_sound {fails : ℕ → Bool} (faults : reliable → ∀ n, fails n = false) :
    (protocol reliable).Sound (exec (τ := τ) fails) (Inv reliable) := by
  constructor
  intro tokens s s' task o r inv pre step
  have still {s' : State τ} (inv : Inv reliable s' tokens) :
      Inv reliable s' (update tokens task (tokens task)) := by
    rwa [update_eq_self]
  cases o with
  | lockBarrier =>
    cases step
    exact ⟨_, rfl, inv.step { readers := inv.readers.append pre rfl }⟩
  | unlockBarrier =>
    cases step
    exact ⟨_, rfl, inv.step { readers := inv.readers.erase pre rfl }⟩
  | storeHasFreeIds value =>
    cases step
    exact ⟨_, rfl, inv.storeHasFreeIds value⟩
  | pop =>
    cases step
    exact ⟨_, rfl, inv.pop⟩
  | push id =>
    refine ⟨_, rfl, still ?_⟩
    simp only [exec] at step
    split_ifs at step with room
    · cases step
      exact inv.push pre
    · cases step
      exact inv
  | readMinter =>
    simp only [exec] at step
    split_ifs at step with locked
    have unlocked := Option.not_isSome_iff_eq_none.mp locked
    cases step
    exact ⟨_, ⟨rfl, inv.sound.sane unlocked⟩, inv.readMinter unlocked⟩
  | lockMinter =>
    simp only [exec] at step
    split_ifs at step with locked
    have unlocked := Option.not_isSome_iff_eq_none.mp locked
    cases step
    exact ⟨_, ⟨rfl, inv.sound.sane unlocked⟩, inv.lockMinter unlocked⟩
  | storeNextId nextId =>
    cases step
    obtain ⟨m, locked, rfl, small⟩ := pre
    refine ⟨_, fun m' locked' => ?_, inv.storeNextId locked small⟩
    obtain rfl := Minting.locked.inj (locked.symm.trans locked')
    rfl
  | storeMaxBlock maxBlock =>
    cases step
    obtain ⟨id, max, written, rfl⟩ := pre
    refine ⟨_, fun id' max' written' => ?_, inv.storeMaxBlock written⟩
    obtain ⟨rfl, rfl⟩ := Minting.written.inj (written.symm.trans written')
    rfl
  | unlockMinter =>
    cases step
    exact ⟨_, rfl, inv.unlockMinter pre⟩
  | rmw id used =>
    simp only [exec] at step
    split_ifs at step with failed
    · cases step
      exact ⟨_, ⟨rfl, fun r => by simp [faults r] at failed⟩, still inv.tick⟩
    · cases step
      rw [rmw_changed]
      by_cases same : s.used id = used
      · rw [show s.tick.used id = used from same, bne_self_eq_false]
        refine ⟨_, ⟨rfl, ?_⟩, still (inv.tick.rmw_of_same same)⟩
        rintro rfl
        obtain ⟨_, _, ⟨idle, _⟩ | ⟨max, bumped, _⟩⟩ := pre
        · exact idle
        · cases (inv.stage bumped).2.2.1.symm.trans same
      · rw [show (s.tick.used id != used) = true from bne_iff_ne.mpr same]
        cases used with
        | true => exact ⟨_, rfl, inv.tick.rmw_set (Bool.not_eq_true _ ▸ same) pre⟩
        | false => exact ⟨_, rfl, inv.tick.rmw_clear (Bool.not_eq_false _ ▸ same) pre⟩
  | writeBlock blockId =>
    obtain ⟨id, max, bumped, rfl, block⟩ := pre
    simp only [exec] at step
    split_ifs at step with failed
    · cases step
      exact ⟨_, ⟨rfl, fun r => by simp [faults r] at failed⟩, still inv.tick⟩
    · cases step
      refine ⟨_, fun id' max' bumped' => ?_, inv.tick.writeBlock bumped block⟩
      obtain ⟨rfl, rfl⟩ := Minting.bumped.inj (bumped.symm.trans bumped')
      rfl
  | fetchAddTotal =>
    cases step
    exact ⟨_, rfl, inv.settle pre rfl⟩
  | fetchSubTotal =>
    cases step
    refine ⟨_, rfl, inv.settle pre ?_⟩
    rw [BitVec.sub_eq_add_neg]
    rfl
  | returns event =>
    cases step
    rcases event with (error | id) | _
    · exact ⟨_, rfl, still inv⟩
    · exact ⟨_, rfl, inv.returnsId pre⟩
    · exact ⟨_, rfl, still inv⟩
  | readBlock blockId =>
    cases step
    exact ⟨_, rfl, still inv.tick⟩
  | lockRefill =>
    simp only [exec] at step
    split_ifs at step with locked
    cases step
    exact ⟨_, rfl, inv.step { refill := inv.refill.append pre rfl }⟩
  | unlockRefill =>
    cases step
    exact ⟨_, rfl, inv.step { refill := inv.refill.erase pre rfl }⟩
  | enableQuantization =>
    simp only [exec] at step
    split_ifs at step with free
    cases step
    exact ⟨_, rfl, still (inv.still { inv.sound with } rfl rfl rfl rfl)⟩
  | _ =>
    cases step
    exact ⟨_, rfl, still (inv.still { inv.sound with } rfl rfl rfl rfl)⟩

end Invariant

end DiskAnn.Garnet.Fsm
