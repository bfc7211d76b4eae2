import DiskAnn.Machine.Prog

/-! # The free space map

The free space map of `fsm.rs`: a bitmap of used ids in blocks that Garnet stores, an in-memory list
of ids that may be reused, a counter of minted ids and the flags around them. Every callback of
Garnet, every atomic access and every operation of the queue is one operation; so is taking a lock,
and a look at what is behind the read side of the minter lock. A callback fails whenever the oracle
`fails` says so for its place in the sequence of all callbacks, and then it has no effect. The counter
of ids is a `u32` and minting panics where it would overflow.

History that no operation reads: how often each id was taken, freed and returned, and what the tasks
have outstanding between the parts of a call.
-/

namespace DiskAnn.Garnet

open Function

inductive GarnetError
  | read
  | write
  | delete
  deriving DecidableEq, Repr

namespace Fsm

open Machine

def blockSizeIds : ℕ := 2 ^ 16

def blockSizeBytes : ℕ := blockSizeIds / 8

def fastSize : ℕ := 1024

/-- `u32::MAX` -/
def u32Max : ℕ := 2 ^ 32 - 1

inductive FsmError
  | garnet (error : GarnetError)
  | idOutOfRange (id : ℕ)
  deriving DecidableEq, Repr

/-! ## Blocks -/

/-- The bytes of a block. -/
abbrev Block := ℕ → BitVec 8

/-- The buffer that new blocks are written from. -/
def Block.zero : Block := fun _ => 0

def bitUsed (byte : BitVec 8) (bidx : ℕ) : Bool := (byte >>> (7 - bidx)) &&& 1 == 1

/-- `update_status`: the byte it leaves, and whether the value changed. -/
def updateStatus (used : Bool) (byte : BitVec 8) (bidx : ℕ) : BitVec 8 × Bool :=
  let mask := (1 : BitVec 8) <<< (7 - bidx)
  let value := (if used then 1 else 0 : BitVec 8) <<< (7 - bidx)
  let changed := used && byte &&& mask == 0 || !used && byte &&& mask != 0
  ((byte &&& ~~~mask) ||| value, changed)

/-- `indexes_for_id`: the block, the byte in it and the bit in that. -/
def indexesForId (id : ℕ) : ℕ × ℕ × ℕ :=
  let blockIdx := id % blockSizeIds
  (id / blockSizeIds, blockIdx / 8, blockIdx % 8)

/-- Whether the bit of an id is set; a block that does not exist reads as zeros. -/
def bitSet (blocks : ℕ → Option Block) (id : ℕ) : Bool :=
  let (blockId, byteIdx, bitIdx) := indexesForId id
  bitUsed ((blocks blockId).getD Block.zero byteIdx) bitIdx

/-- The blocks after the read-modify-write that sets the bit of an id, and whether it changed. -/
def writeBit (blocks : ℕ → Option Block) (id : ℕ) (used : Bool) : (ℕ → Option Block) × Bool :=
  let (blockId, byteIdx, bitIdx) := indexesForId id
  let block := (blocks blockId).getD Block.zero
  let (byte, changed) := updateStatus used (block byteIdx) bitIdx
  (update blocks blockId (some (update block byteIdx byte)), changed)

/-! ## State -/

structure Barrier where
  maxIdForBackfill : ℕ
  quantizationEnabled : Bool
  deriving DecidableEq, Repr

/-- The counter and the number of the last block of an `IdMinter`. -/
structure IdMinter where
  nextId : ℕ
  maxBlock : ℕ
  deriving DecidableEq, Repr

structure State (τ : Type) where
  /-- The blocks that Garnet holds. -/
  blocks : ℕ → Option Block
  hasFreeIds : Bool
  fastFreeList : List ℕ
  idMinter : IdMinter
  /-- The write lock of the minter, with the counter that its holder found. -/
  minterLock : Option ℕ
  totalUsed : BitVec 64
  reuseEnabled : Bool
  barrier : Barrier
  /-- The tasks that hold the read side of the barrier. -/
  readers : List (τ × Unit)
  /-- The task that holds the lock around a refill. -/
  refillLock : List (τ × Unit)
  /-- History: how many callbacks have been made. -/
  clock : ℕ
  /-- History: how often each id has been marked used, marked free and returned by `next_id`. -/
  taken : ℕ → ℕ
  freed : ℕ → ℕ
  returned : ℕ → ℕ
  /-- History: ids that a task has marked used and not yet returned. -/
  owed : List (τ × ℕ)
  /-- History: changes of the bitmap that the task has not yet counted in `total_used`. -/
  unsettled : List (τ × Bool)
  /-- History: ids that a task has marked free before it sets `has_free_ids`. -/
  unannounced : List (τ × ℕ)

namespace State

variable {τ : Type}

/-- Whether the bit of an id is set. -/
def used (s : State τ) (id : ℕ) : Bool := bitSet s.blocks id

/-- The counter as the read side of the minter lock gives it out. -/
def counter (s : State τ) : ℕ := s.minterLock.getD s.idMinter.nextId

end State

/-! ## Construction -/

/-- What `load_state` has gathered so far, and the id that it looks at. -/
structure Loaded where
  lastUsedId : ℤ
  totalUsed : ℕ
  fastFreeList : List ℕ
  id : ℕ

/-- The loop of `load_state` over the first bits of a byte, from the last of them down. -/
def loadBits (byte : BitVec 8) : ℕ → Loaded → Loaded
  | 0, l => l
  | bidx + 1, l =>
      let l :=
        if bitUsed byte bidx then
          { l with lastUsedId := max l.lastUsedId l.id, totalUsed := l.totalUsed + 1 }
        else if l.id < l.lastUsedId ∧ l.fastFreeList.length < fastSize then
          { l with fastFreeList := l.fastFreeList ++ [l.id] }
        else l
      loadBits byte bidx { l with id := l.id - 1 }

/-- The loop over the first bytes of a block, from the last of them down. -/
def loadBytes (block : Block) : ℕ → Loaded → Loaded
  | 0, l => l
  | byteIdx + 1, l => loadBytes block byteIdx (loadBits (block byteIdx) 8 l)

/-- The loop over the first blocks, from the last of them down; a failed read breaks it. -/
def loadBlocks (fails : ℕ → Bool) (blocks : ℕ → Option Block) : ℕ → ℕ → Loaded → ℕ × Loaded
  | 0, clock, l => (clock, l)
  | blockId + 1, clock, l =>
      match if fails clock then none else blocks blockId with
      | none => (clock + 1, l)
      | some block =>
          loadBlocks fails blocks blockId (clock + 1)
            (loadBytes block blockSizeBytes
              { l with id := blockId * blockSizeIds + blockSizeIds - 1 })

/-- The first loop of `load_state`: the blocks that exist, counted from `blockId` on. `left` bounds
the probes. -/
def countBlocks (fails : ℕ → Bool) (blocks : ℕ → Option Block) : ℕ → ℕ → ℕ → ℕ × ℕ
  | 0, clock, blockId => (clock, blockId)
  | left + 1, clock, blockId =>
      if !fails clock && (blocks blockId).isSome then
        countBlocks fails blocks left (clock + 1) (blockId + 1)
      else (clock + 1, blockId)

/-- A map over blocks that Garnet holds; the bits that are set count as taken and returned before. -/
def State.over (τ : Type) (blocks : ℕ → Option Block) (clock : ℕ) (loaded : Loaded) (maxBlock : ℕ)
    (quantizationEnabled reuseEnabled : Bool) : State τ :=
  let taken (id : ℕ) : ℕ := if bitSet blocks id then 1 else 0
  { blocks
    hasFreeIds := !loaded.fastFreeList.isEmpty
    fastFreeList := loaded.fastFreeList
    idMinter := ⟨(loaded.lastUsedId + 1).toNat % 2 ^ 32, maxBlock⟩
    minterLock := none
    totalUsed := loaded.totalUsed
    reuseEnabled
    barrier := ⟨u32Max, quantizationEnabled⟩
    readers := []
    refillLock := []
    clock
    taken
    freed := fun _ => 0
    returned := taken
    owed := []
    unsettled := []
    unannounced := [] }

/-- The blocks that ids of type `u32` have room for. -/
def blockLimit : ℕ := 2 ^ 16

/-- `FreeSpaceMap::new`: the state is loaded if the first block exists, else that block is made. -/
def new (τ : Type) (fails : ℕ → Bool) (blocks : ℕ → Option Block)
    (quantizationEnabled reuseEnabled : Bool) : Except FsmError (State τ) :=
  if !fails 0 && (blocks 0).isSome then
    let (clock, maxBlockId) := countBlocks fails blocks (blockLimit + 1) 1 0
    let (clock, loaded) := loadBlocks fails blocks maxBlockId clock ⟨-1, 0, [], 0⟩
    -- `max_block_id - 1` in `u32`
    let maxBlock := (maxBlockId + u32Max) % 2 ^ 32
    .ok (.over τ blocks clock loaded maxBlock quantizationEnabled reuseEnabled)
  else if fails 1 then .error (.garnet .write)
  else .ok (.over τ (update blocks 0 (some Block.zero)) 2 ⟨-1, 0, [], 0⟩ 0
    quantizationEnabled reuseEnabled)

/-! ## Atomic operations -/

/-- What a call returns. -/
inductive Event
  | nextId (result : Except FsmError ℕ)
  | markFree (result : Except FsmError Unit)

inductive Op
  /-- `barrier.read()`, which answers what is behind the lock. -/
  | lockBarrier
  | unlockBarrier
  | loadReuseEnabled
  | loadHasFreeIds
  | storeHasFreeIds (value : Bool)
  | pop
  /-- `push`: whether there was room. -/
  | push (id : ℕ)
  | isEmpty
  /-- `id_minter.read()`, a look at the minter and the release of the lock. -/
  | readMinter
  /-- `id_minter.write()` -/
  | lockMinter
  | storeNextId (nextId : ℕ)
  | storeMaxBlock (maxBlock : ℕ)
  | unlockMinter
  /-- `rmw_wid` with `update_status`: `none` for a failure, else whether the value changed. -/
  | rmw (id : ℕ) (used : Bool)
  | readBlock (blockId : ℕ)
  /-- `write_wid` of the buffer: whether it succeeded. -/
  | writeBlock (blockId : ℕ)
  | fetchAddTotal
  | fetchSubTotal
  | loadTotalUsed
  | lockRefill
  | unlockRefill
  /-- `enable_quantization`, all of it behind the write side of the barrier. -/
  | enableQuantization
  | enableReuse
  /-- `max_id_for_backfill` -/
  | maxIdForBackfill
  /-- History: a call returns. -/
  | returns (event : Event)

@[reducible] def Op.Res : Op → Type
  | lockBarrier => Barrier
  | loadReuseEnabled | loadHasFreeIds | push _ | isEmpty | writeBlock _ => Bool
  | pop => Option ℕ
  | readMinter | lockMinter => IdMinter
  | rmw _ _ => Option Bool
  | readBlock _ => Option Block
  | loadTotalUsed => BitVec 64
  | maxIdForBackfill => ℕ
  | unlockBarrier | storeHasFreeIds _ | storeNextId _ | storeMaxBlock _ | unlockMinter
  | fetchAddTotal | fetchSubTotal | lockRefill | unlockRefill | enableQuantization | enableReuse
  | returns _ => Unit

abbrev interface : Interface := ⟨Op, Op.Res⟩

namespace State

variable {τ : Type} [DecidableEq τ] (s : State τ) (task : τ)

/-- A callback is made. -/
def tick : State τ := { s with clock := s.clock + 1 }

def setMinter (idMinter : IdMinter) : State τ := { s with idMinter }

def newBlock (blockId : ℕ) : State τ :=
  { s with blocks := update s.blocks blockId (some Block.zero) }

/-- History of a bit that a task has changed. -/
def noteChange (id : ℕ) (used : Bool) : State τ :=
  if used then
    { s with
      taken := update s.taken id (s.taken id + 1)
      owed := s.owed ++ [(task, id)]
      unsettled := s.unsettled ++ [(task, true)] }
  else
    { s with
      freed := update s.freed id (s.freed id + 1)
      unsettled := s.unsettled ++ [(task, false)]
      unannounced := s.unannounced ++ [(task, id)] }

/-- The read-modify-write of `mark_id_unchecked`. -/
def rmw (id : ℕ) (used : Bool) : State τ × Bool :=
  let outcome := writeBit s.blocks id used
  let noted := if outcome.2 then s.noteChange task id used else s
  ({ noted with blocks := outcome.1 }, outcome.2)

def storeHasFreeIds (value : Bool) : State τ :=
  { s with
    hasFreeIds := value
    unannounced := if value then s.unannounced.filter (·.1 ≠ task) else s.unannounced }

def returns : Event → State τ
  | .nextId (.ok id) =>
      { s with
        returned := update s.returned id (s.returned id + 1)
        owed := s.owed.erase (task, id) }
  | _ => s

end State

/-- What each operation does. -/
def exec {τ : Type} [DecidableEq τ] (fails : ℕ → Bool) : Semantics interface τ (State τ) :=
  fun task o s =>
  match o with
  | .lockBarrier => some ({ s with readers := s.readers ++ [(task, ())] }, s.barrier)
  | .unlockBarrier => some ({ s with readers := s.readers.erase (task, ()) }, ())
  | .loadReuseEnabled => some (s, s.reuseEnabled)
  | .loadHasFreeIds => some (s, s.hasFreeIds)
  | .storeHasFreeIds value => some (s.storeHasFreeIds task value, ())
  | .pop => some ({ s with fastFreeList := s.fastFreeList.tail }, s.fastFreeList.head?)
  | .push id =>
      if s.fastFreeList.length < fastSize then
        some ({ s with fastFreeList := s.fastFreeList ++ [id] }, true)
      else some (s, false)
  | .isEmpty => some (s, s.fastFreeList.isEmpty)
  | .readMinter => if s.minterLock.isSome then none else some (s, s.idMinter)
  | .lockMinter =>
      if s.minterLock.isSome then none
      else some ({ s with minterLock := some s.idMinter.nextId }, s.idMinter)
  | .storeNextId nextId => some (s.setMinter { s.idMinter with nextId }, ())
  | .storeMaxBlock maxBlock => some (s.setMinter { s.idMinter with maxBlock }, ())
  | .unlockMinter => some ({ s with minterLock := none }, ())
  | .rmw id used =>
      if fails s.clock then some (s.tick, none)
      else
        let (s, changed) := s.tick.rmw task id used
        some (s, some changed)
  | .readBlock blockId => some (s.tick, if fails s.clock then none else s.blocks blockId)
  | .writeBlock blockId =>
      if fails s.clock then some (s.tick, false)
      else some (s.tick.newBlock blockId, true)
  | .fetchAddTotal =>
      some ({ s with
        totalUsed := s.totalUsed + 1
        unsettled := s.unsettled.erase (task, true) }, ())
  | .fetchSubTotal =>
      some ({ s with
        totalUsed := s.totalUsed - 1
        unsettled := s.unsettled.erase (task, false) }, ())
  | .loadTotalUsed => some (s, s.totalUsed)
  | .lockRefill =>
      if s.refillLock.isEmpty then some ({ s with refillLock := s.refillLock ++ [(task, ())] }, ())
      else none
  | .unlockRefill => some ({ s with refillLock := s.refillLock.erase (task, ()) }, ())
  | .enableQuantization =>
      -- the write lock waits for the readers, and `max_id` for the minter
      if s.readers.isEmpty ∧ s.minterLock.isNone then
        some ({ s with barrier := ⟨s.idMinter.nextId - 1, true⟩ }, ())
      else none
  | .enableReuse => some ({ s with reuseEnabled := true }, ())
  | .maxIdForBackfill => some (s, s.barrier.maxIdForBackfill)
  | .returns event => some (s.returns task event, ())

/-! ## Code -/

inductive Panic
  /-- The counter of ids leaves its type. -/
  | overflow
  deriving DecidableEq, Repr

abbrev Code := Prog interface Panic

/-- One atomic operation as code. -/
abbrev access (o : Op) : Code o.Res := Prog.op (I := interface) o

/-- `mark_id_unchecked` -/
def markIdUnchecked (id : ℕ) (used : Bool) : Code (Except FsmError Bool) := do
  let outcome : Option Bool ← access (.rmw id used)
  match outcome with
  | none => pure (.error (.garnet .write))
  | some false => pure (.ok false)
  | some true =>
      if used then
        let _ : Unit ← access .fetchAddTotal
        pure (.ok true)
      else
        let _ : Unit ← access .fetchSubTotal
        -- if the queue is full, the id is only in the bitmap
        let _ : Bool ← access (.push id)
        let _ : Unit ← access (.storeHasFreeIds true)
        pure (.ok true)

/-- `mark_id` -/
def markId (id : ℕ) (used : Bool) : Code (Except FsmError Bool) := do
  let minter : IdMinter ← access .readMinter
  if minter.nextId ≤ id then pure (.error (.idOutOfRange id)) else markIdUnchecked id used

/-- `mark_free` -/
def markFree (id : ℕ) : Code (Except FsmError Unit) := do
  match ← markId id false with
  | .error error => pure (.error error)
  | .ok _ => pure (.ok ())

/-- Where a scan stands: whether it has stopped, the id it has come to, and whether it found a free
one. -/
structure Scan where
  stopped : Bool
  id : ℕ
  found : Bool

/-- The loop of `refill_fast_free_list` over the last `left` bits of a byte. -/
def scanBits (nextId : ℕ) (byte : BitVec 8) : ℕ → ℕ → Bool → Code Scan
  | 0, id, found => pure ⟨false, id, found⟩
  | left + 1, id, found =>
      if nextId ≤ id then pure ⟨true, id, found⟩
      else if bitUsed byte (8 - (left + 1)) then scanBits nextId byte left (id + 1) found
      else do
        let _ : Unit ← access (.storeHasFreeIds true)
        let room : Bool ← access (.push id)
        if room then scanBits nextId byte left (id + 1) true else pure ⟨true, id, true⟩

/-- The loop over the last `left` bytes of a block. -/
def scanBytes (nextId : ℕ) (block : Block) : ℕ → ℕ → Bool → Code Scan
  | 0, id, found => pure ⟨false, id, found⟩
  | left + 1, id, found =>
      if nextId ≤ id then pure ⟨true, id, found⟩
      else if block (blockSizeBytes - (left + 1)) = 0xff then
        scanBytes nextId block left (id + 8) found
      else do
        let scan ← scanBits nextId (block (blockSizeBytes - (left + 1))) 8 id found
        if scan.stopped then pure scan else scanBytes nextId block left scan.id scan.found

/-- The loop over `left` blocks from `blockId` on: whether a free id was found. -/
def scanBlocks (nextId : ℕ) : ℕ → ℕ → ℕ → Bool → Code (Except FsmError Bool)
  | 0, _, _, found => pure (.ok found)
  | left + 1, blockId, id, found =>
      if nextId ≤ id then pure (.ok found)
      else do
        let block : Option Block ← access (.readBlock blockId)
        match block with
        | none => pure (.error (.garnet .read))
        | some block =>
            let scan ← scanBytes nextId block blockSizeBytes id found
            if scan.stopped then pure (.ok scan.found)
            else scanBlocks nextId left (blockId + 1) scan.id scan.found

/-- `refill_fast_free_list` -/
def refillFastFreeList : Code (Except FsmError Bool) := do
  let _ : Unit ← access .lockRefill
  let empty : Bool ← access .isEmpty
  if !empty then
    let _ : Unit ← access .unlockRefill
    pure (.ok true)
  else
    let minter : IdMinter ← access .readMinter
    match ← scanBlocks minter.nextId (minter.maxBlock + 1) 0 0 false with
    | .error error =>
        let _ : Unit ← access .unlockRefill
        pure (.error error)
    | .ok found =>
        if found then
          let _ : Unit ← access .unlockRefill
          pure (.ok true)
        else
          let _ : Unit ← access (.storeHasFreeIds false)
          let _ : Unit ← access .unlockRefill
          pure (.ok false)

/-- `expand_to`, behind the write lock of the minter. -/
def expandTo (minter : IdMinter) (id : ℕ) : Code (Except FsmError Unit) :=
  let (blockId, _, _) := indexesForId id
  if minter.maxBlock = u32Max ∨ blockId = minter.maxBlock + 1 then do
    let written : Bool ← access (.writeBlock blockId)
    if written then
      let _ : Unit ← access (.storeMaxBlock (if minter.maxBlock = u32Max then 0 else minter.maxBlock + 1))
      pure (.ok ())
    else pure (.error (.garnet .write))
  else if minter.maxBlock + 1 < blockId then pure (.error (.idOutOfRange id))
  else pure (.ok ())

/-- What an iteration does with an id from the list: another iteration if somebody else has it. -/
def claim (id : ℕ) : Code (Unit ⊕ Except FsmError (Option ℕ)) := do
  match ← markId id true with
  | .error error => pure (.inr (.error error))
  | .ok changed => pure (if changed then .inr (.ok (some id)) else .inl ())

/-- The loop of `next_id` that looks for an id to reuse. -/
def reuse : Code (Except FsmError (Option ℕ)) :=
  Prog.repeatUntil (fun _ => do
    let first : Option ℕ ← access .pop
    match first with
    | some id => claim id
    | none =>
        match ← refillFastFreeList with
        | .error error => pure (.inr (.error error))
        | .ok false => pure (.inr (.ok none))
        | .ok true =>
            let second : Option ℕ ← access .pop
            match second with
            | some id => claim id
            | none => pure (.inr (.ok none))) ()

/-- The end of `next_id`: a new id, behind the write lock of the minter. -/
def mint : Code (Except FsmError ℕ) := do
  let minter : IdMinter ← access .lockMinter
  if minter.nextId = u32Max then Prog.panic .overflow
  else
    let id := minter.nextId
    let _ : Unit ← access (.storeNextId (id + 1))
    match ← expandTo minter id with
    | .error error =>
        let _ : Unit ← access .unlockMinter
        pure (.error error)
    | .ok () =>
        match ← markIdUnchecked id true with
        | .error error =>
            let _ : Unit ← access .unlockMinter
            pure (.error error)
        | .ok _ =>
            let _ : Unit ← access .unlockMinter
            pure (.ok id)

/-- A `ReuseGuard` holds the read side of the barrier. -/
structure ReuseGuard where
  id : ℕ
  barrier : Barrier

def ReuseGuard.shouldQuantize (guard : ReuseGuard) : Bool := guard.barrier.quantizationEnabled

/-- A new id under the barrier; an error drops the barrier. -/
def mintGuarded (barrier : Barrier) : Code (Except FsmError ReuseGuard) := do
  match ← mint with
  | .error error =>
      let _ : Unit ← access .unlockBarrier
      pure (.error error)
  | .ok id => pure (.ok ⟨id, barrier⟩)

/-- `next_id`; an error drops the barrier. -/
def nextId : Code (Except FsmError ReuseGuard) := do
  let barrier : Barrier ← access .lockBarrier
  let enabled : Bool ← access .loadReuseEnabled
  let free : Bool ← if enabled then access .loadHasFreeIds else pure false
  match ← (if free then reuse else pure (.ok none)) with
  | .error error =>
      let _ : Unit ← access .unlockBarrier
      pure (.error error)
  | .ok (some id) => pure (.ok ⟨id, barrier⟩)
  | .ok none => mintGuarded barrier

/-! ## Clients -/

inductive Request
  | nextId
  | markFree (id : ℕ)

/-- A call, and the drop of the guard it returns. -/
def Request.code : Request → Code Unit
  | .nextId => do
      match ← Fsm.nextId with
      | .error error => access (.returns (.nextId (.error error)))
      | .ok guard =>
          let _ : Unit ← access (.returns (.nextId (.ok guard.id)))
          access .unlockBarrier
  | .markFree id => do
      let result ← Fsm.markFree id
      access (.returns (.markFree result))

def client : List Request → Code Unit
  | [] => pure ()
  | request :: rest => do
      request.code
      client rest

/-- A map and any number of tasks, each with its own calls. -/
def start {τ : Type} (state : State τ) (requests : τ → List Request) :
    Config interface Panic τ (State τ) :=
  ⟨state, fun task => client (requests task)⟩

end Fsm

end DiskAnn.Garnet
