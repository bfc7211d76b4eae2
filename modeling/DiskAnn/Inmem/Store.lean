import DiskAnn.Inmem.Epoch

/-! # The concurrent slot store of the in-memory provider

The store of `store.rs`, with the tags of `tag.rs` and the freelist of `freelist.rs`. Every slot has
an authoritative tag, on which owners arbitrate, and a mirror of it beside the data, which is all
that readers look at. Atomic accesses of tags, mirrors, freelist and epoch registry are single
operations, and a write to a slot is one operation per byte.

History that no operation reads: the `Slot` each task holds, from the CAS that owns the tag to the
store that gives it back, and what the reader in each guard slot has read successfully.
-/

namespace DiskAnn.Inmem

open Machine Function

/-! ## Tags -/

inductive Tag
  | available
  | owned
  | retiring
  | published
  | frozen
  deriving DecidableEq, Repr

namespace Tag

/-- The byte stored for a tag. -/
def value : Tag → UInt8
  | frozen => 255
  | published => 254
  | available => 0
  | owned => 1
  | retiring => 2

def isReserved (tag : Tag) : Bool := tag.value ≤ retiring.value || tag == frozen

def canRead (tag : Tag) : Bool := published.value ≤ tag.value

theorem eq_published_of_not_reserved {tag : Tag} (unreserved : tag.isReserved = false) :
    tag = published := by
  cases tag <;> first | rfl | cases unreserved

/-- The transitions documented for the authoritative tag. -/
inductive Transition : Tag → Tag → Prop
  | acquire : Transition available owned
  | publish : Transition owned published
  | abandon : Transition owned available
  | retire : Transition published retiring
  | reclaim : Transition retiring available

end Tag

namespace Store

/-! ## State -/

/-- The sizes of a store, as `Store::new` accepts them. -/
structure Layout where
  unfrozen : ℕ
  total : ℕ
  recycleCapacity : ℕ
  unfrozen_lt : unfrozen < total
  total_lt : total < 2 ^ 32

/-- How far a task is with the `Slot` it holds. -/
inductive Stage
  | owned
  | publishing
  | dropping
  deriving DecidableEq, Repr

structure State (n : ℕ) (τ : Type) where
  registry : Epoch.Registry n
  tags : ℕ → Tag
  mirrors : ℕ → Tag
  data : ℕ → List UInt8
  recycled : List ℕ
  next : ℕ
  scanBucket : ℕ
  /-- History: the slot each task holds. -/
  held : τ → Option (ℕ × Stage)
  /-- History: what the reader registered in each guard slot has read. -/
  reads : Fin n → List ℕ

structure Config where
  entries : ℕ
  bytes : ℕ
  maxNeighbors : ℕ
  freelistRecycleCapacity : ℕ

/-- The rows of the `init` matrix, each of `ncols` bytes. -/
structure Rows where
  ncols : ℕ
  rows : List (List UInt8)

inductive StoreError
  | mismatchedFrozenPointDim (dim bytes : ℕ)
  | needFrozenPoint
  | tooManyEntries (entries frozen : ℕ)
  | tooManyNeighbors (neighbors : ℕ)
  | bufferError
  | neighborsError
  deriving DecidableEq, Repr

/-- Whether `Buffer::new` accepts the size: rounded up to the alignment of 128 it fits `isize`. -/
def bufferFits (entries stride : ℕ) : Bool := (entries * stride + 127) / 128 * 128 < 2 ^ 63

/-- One frozen row: its slot is claimed, written and frozen before the store is shared. -/
def State.freezeRow {n : ℕ} {τ : Type} (s : State n τ) (i : ℕ) (row : List UInt8) : State n τ :=
  { s with
    data := update s.data i row
    mirrors := update s.mirrors i .frozen
    tags := update s.tags i .frozen }

def State.freezeRows {n : ℕ} {τ : Type} : State n τ → ℕ → List (List UInt8) → State n τ
  | s, _, [] => s
  | s, i, row :: rest => (s.freezeRow i row).freezeRows (i + 1) rest

/-- A store before its frozen points are written. -/
def State.empty (n : ℕ) (τ : Type) (bytes : ℕ) : State n τ where
  registry := .withCapacity n
  tags _ := .available
  mirrors _ := .available
  data _ := List.replicate bytes 0
  recycled := []
  next := 0
  scanBucket := 0
  held _ := none
  reads _ := []

/-- `Store::new`. -/
def new (n : ℕ) (τ : Type) (config : Config) (init : Rows) :
    Except StoreError (Layout × State n τ) :=
  if init.ncols ≠ config.bytes then
    .error (.mismatchedFrozenPointDim init.ncols config.bytes)
  else if nonempty : init.rows.length = 0 then .error .needFrozenPoint
  else if fits : config.entries + init.rows.length < 2 ^ 32 then
    if config.maxNeighbors < 2 ^ 32 then
      let paddedBytes := (config.bytes + 1 + 31) / 32 * 32
      let total := config.entries + init.rows.length
      if bufferFits total paddedBytes then
        if bufferFits total ((config.maxNeighbors + 1) * 4) then
          .ok (⟨config.entries, total, config.freelistRecycleCapacity, by omega, fits⟩,
            (State.empty n τ config.bytes).freezeRows config.entries init.rows)
        else .error .neighborsError
      else .error .bufferError
    else .error (.tooManyNeighbors config.maxNeighbors)
  else .error (.tooManyEntries config.entries init.rows.length)

/-! ## Atomic accesses -/

inductive Op (n : ℕ)
  | epoch (o : Epoch.Op n)
  | loadTag (i : ℕ)
  | casTag (i : ℕ) (old new : Tag)
  | storeTag (i : ℕ) (tag : Tag)
  | loadMirror (i : ℕ)
  | storeMirror (i : ℕ) (tag : Tag)
  /-- The load of a mirror by the reader registered in `slot`. -/
  | read (slot : Fin n) (i : ℕ)
  | writeByte (i offset : ℕ) (byte : UInt8)
  | popRecycled
  | pushRecycled (id : ℕ)
  | loadNext
  | casNext (next : ℕ)
  | fetchAddScanBucket

@[reducible] def Op.Res {n : ℕ} : Op n → Type
  | epoch o => o.Res
  | loadTag _ | loadMirror _ | read _ _ => Tag
  | casTag _ _ _ | pushRecycled _ => Bool
  | storeTag _ _ | storeMirror _ _ | writeByte _ _ _ => Unit
  | popRecycled => Option ℕ
  | loadNext | fetchAddScanBucket => ℕ
  | casNext _ => Except ℕ ℕ

abbrev interface (n : ℕ) : Interface := ⟨Op n, Op.Res⟩

namespace State

variable {n : ℕ} {τ : Type} [DecidableEq τ] (s : State n τ) (task : τ)

/-- A guard leaves with everything its reader has read. -/
def withRegistry (registry : Epoch.Registry n) (o : Epoch.Op n) : State n τ :=
  match o with
  | .dropGuard slot => { s with registry, reads := update s.reads slot [] }
  | _ => { s with registry }

/-- A task that owns the tag of a slot holds its `Slot`. -/
def setOwned (i : ℕ) (tag : Tag) : State n τ :=
  { s with
    tags := update s.tags i tag
    held := if tag = .owned then update s.held task (some (i, .owned)) else s.held }

/-- The first store of `publish` or of the drop consumes a `Slot`. -/
def setMirror (i : ℕ) (tag : Tag) : State n τ :=
  { s with
    mirrors := update s.mirrors i tag
    held := if s.held task = some (i, .owned) then
        update s.held task (some (i, if tag = .published then .publishing else .dropping))
      else s.held }

/-- The store to the tag gives a `Slot` back. -/
def setTag (i : ℕ) (tag : Tag) : State n τ :=
  { s with
    tags := update s.tags i tag
    held := if (s.held task).map Prod.fst = some i then update s.held task none
      else s.held }

end State

/-- What each atomic access does. -/
def exec {n : ℕ} {τ : Type} [DecidableEq τ] (layout : Layout) :
    Semantics (interface n) τ (State n τ) := fun task o s =>
  match o with
  | .epoch o => (Epoch.exec task o s.registry).map fun out => (s.withRegistry out.1 o, out.2)
  | .loadTag i => some (s, s.tags i)
  | .casTag i old new =>
      if s.tags i = old then some (s.setOwned task i new, true) else some (s, false)
  | .storeTag i tag => some (s.setTag task i tag, ())
  | .loadMirror i => some (s, s.mirrors i)
  | .storeMirror i tag => some (s.setMirror task i tag, ())
  | .read slot i =>
      some (if (s.mirrors i).canRead then
        { s with reads := update s.reads slot (i :: s.reads slot) } else s, s.mirrors i)
  | .writeByte i offset byte =>
      some ({ s with data := update s.data i ((s.data i).set offset byte) }, ())
  | .popRecycled => some ({ s with recycled := s.recycled.tail }, s.recycled.head?)
  | .pushRecycled id =>
      if s.recycled.length < layout.recycleCapacity then
        some ({ s with recycled := s.recycled ++ [id] }, true)
      else some (s, false)
  | .loadNext => some (s, s.next)
  | .casNext next =>
      if s.next = next then some ({ s with next := next + 1 }, .ok next)
      else some (s, .error s.next)
  | .fetchAddScanBucket =>
      some ({ s with scanBucket := (s.scanBucket + 1) % 2 ^ 32 }, s.scanBucket)

/-! ## Code -/

/-- What the code can panic with. -/
inductive Panic
  | epoch (reason : Epoch.Panic)
  /-- "received an invalid ID while reclaiming slots" -/
  | invalidId
  /-- "CONCURRENCY VIOLATION: mirror" -/
  | mirrorViolation
  /-- "CONCURRENCY VIOLATION: tag" -/
  | tagViolation
  /-- "freelist scan should not give out invalid IDs" -/
  | invalidScan
  deriving DecidableEq, Repr

abbrev Code (n : ℕ) := Prog (interface n) Panic

/-- One atomic access as code. -/
abbrev access {n : ℕ} (o : Op n) : Code n o.Res := Prog.op (I := interface n) o

/-- Code of the epoch registry, run inside the store. -/
def registry {n : ℕ} {α : Type} (code : Epoch.Code n α) : Code n α :=
  code.lift (J := interface n) Op.epoch (fun _ answer => answer) Panic.epoch

/-- A `Slot` is known by its index. -/
structure Slot where
  slot : ℕ

inductive RetireError
  | outOfBounds
  | slotIsReserved (tag : Tag)
  | guardUnavailable (error : Epoch.Unavailable)
  | couldNotClaimSlot
  deriving DecidableEq, Repr

def retryLimit : ℕ := 20

def scanSize : ℕ := 256

section Code

variable {n : ℕ} (layout : Layout)

/-- `Freelist::pop`; `none` is `Id::Scan`. -/
def freelistPop : Code n (Option ℕ) := do
  let recycled : Option ℕ ← access .popRecycled
  match recycled with
  | some id => pure (some id)
  | none =>
      let next : ℕ ← access .loadNext
      Prog.repeatUntil (fun next =>
        if next < layout.unfrozen then do
          let minted : Except ℕ ℕ ← access (.casNext next)
          match minted with
          | .ok id => pure (.inr (some id))
          | .error actual => pure (.inl actual)
        else pure (.inr none)) next

/-- `Freelist::push`. -/
def freelistPush (id : ℕ) : Code n Bool :=
  if id < layout.unfrozen then access (.pushRecycled id) else pure false

/-- `Freelist::scan`: the ids of the next bucket. -/
def freelistScan : Code n (List ℕ) :=
  if layout.unfrozen = 0 then pure []
  else do
    let buckets := (layout.unfrozen + scanSize - 1) / scanSize
    let count : ℕ ← access .fetchAddScanBucket
    let start := count % buckets * scanSize
    pure (List.range' start (min (start + scanSize) layout.unfrozen - start))

def tryAcquire (i : ℕ) : Code n (Option Slot) := do
  let tag : Tag ← access (.loadTag i)
  if tag ≠ .available then pure none
  else
    let claimed : Bool ← access (.casTag i .available .owned)
    pure (if claimed then some ⟨i⟩ else none)

/-- `Store::slot`. -/
def slot (i : ℕ) : Code n (Option Slot) :=
  if i < layout.total then tryAcquire i else pure none

/-- The inner loop of `scan_acquire` over one chunk. -/
def scanChunk (acquired : Option Slot) : List ℕ → Code n (Option Slot)
  | [] => pure acquired
  | i :: rest =>
      if i < layout.total then do
        let tag : Tag ← access (.loadTag i)
        if tag = .available then
          match acquired with
          | none => scanChunk (← tryAcquire i) rest
          | some _ =>
              let _ ← freelistPush layout i
              scanChunk acquired rest
        else scanChunk acquired rest
      else Prog.panic .invalidScan

/-- `Store::scan_acquire`; the loop carries what remains to scan and the chunks since the freelist
was last checked. -/
def scanAcquire : Code n (Option Slot) :=
  Prog.repeatUntil (fun (remaining, chunks) =>
    if remaining ≠ 0 then do
      let chunk ← freelistScan layout
      let remaining := remaining - chunk.length
      match ← scanChunk layout none chunk with
      | some acquired => pure (.inr (some acquired))
      | none =>
          if chunks + 1 = 4 then
            let recycled : Option ℕ ← access .popRecycled
            match recycled with
            | none => pure (.inl (remaining, 0))
            | some id =>
                match ← slot layout id with
                | some acquired => pure (.inr (some acquired))
                | none => pure (.inl (remaining, 0))
          else pure (.inl (remaining, chunks + 1))
    else pure (.inr none))
    ((layout.unfrozen + retryLimit - 1) / retryLimit, 0)

/-- The loop of `try_drain` over a drain; a failed assertion unwinds through the drain. -/
def reclaim (d : Epoch.Drain) : Code n Unit :=
  Prog.repeatUntil (fun (_ : Unit) => do
    let popped : Option UInt32 ← access (.epoch (.pop d.queue))
    match popped with
    | none => pure (.inr ())
    | some id =>
        let i := id.toNat
        if i < layout.total then
          let mirror : Tag ← access (.loadMirror i)
          if mirror = .retiring then
            let _ : Unit ← access (.storeMirror i .available)
            let tag : Tag ← access (.loadTag i)
            if tag = .retiring then
              let _ : Unit ← access (.storeTag i .available)
              let _ ← freelistPush layout i
              pure (.inl ())
            else
              let _ : Unit ← access (.epoch .unlock)
              Prog.panic .tagViolation
          else
            let _ : Unit ← access (.epoch .unlock)
            Prog.panic .mirrorViolation
        else
          let _ : Unit ← access (.epoch .unlock)
          Prog.panic .invalidId) ()

/-- `Store::try_drain`. -/
def tryDrain : Code n (Option ℕ) := do
  match ← registry Epoch.tryAdvance with
  | none => pure none
  | some d =>
      let items : ℕ ← access (.epoch (.len d.queue))
      reclaim layout d
      let _ : Unit ← access (.epoch .unlock)
      pure (some items)

def acquireWithin : ℕ → Code n (Option Slot)
  | 0 => pure none
  | attempts + 1 => do
      match ← freelistPop layout with
      | some id =>
          match ← slot layout id with
          | some acquired => pure (some acquired)
          | none => acquireWithin attempts
      | none =>
          match ← scanAcquire layout with
          | some acquired => pure (some acquired)
          | none =>
              let _ ← tryDrain layout
              acquireWithin attempts

/-- `Store::acquire`. -/
def acquire : Code n (Option Slot) := acquireWithin layout retryLimit

/-- `Store::retire`; the guard is dropped on every way out. -/
def retire [NeZero n] (i : ℕ) : Code n (Except RetireError Unit) :=
  if i < layout.total then do
    let current : Tag ← access (.loadTag i)
    if current.isReserved then pure (.error (.slotIsReserved current))
    else
      match ← registry Epoch.guard with
      | .error error => pure (.error (.guardUnavailable error))
      | .ok guard =>
          let claimed : Bool ← access (.casTag i current .retiring)
          if claimed then
            let _ : Unit ← access (.storeMirror i .retiring)
            let _ : Unit ← access (.epoch (.push guard.retire (UInt32.ofNat i)))
            let _ : Unit ← access (.epoch (.dropGuard guard.slot))
            pure (.ok ())
          else
            let _ : Unit ← access (.epoch (.dropGuard guard.slot))
            pure (.error .couldNotClaimSlot)
  else pure (.error .outOfBounds)

/-- `Slot::publish`. -/
def Slot.publish (acquired : Slot) : Code n ℕ := do
  let _ : Unit ← access (.storeMirror acquired.slot .published)
  let _ : Unit ← access (.storeTag acquired.slot .published)
  pure acquired.slot

/-- The drop of an unpublished `Slot`. -/
def Slot.drop (acquired : Slot) : Code n Unit := do
  let _ : Unit ← access (.storeMirror acquired.slot .available)
  let _ : Unit ← access (.storeTag acquired.slot .available)
  pure ()

def Slot.writeAll (acquired : Slot) : List (ℕ × UInt8) → Code n Unit
  | [] => pure ()
  | (offset, byte) :: rest => do
      let _ : Unit ← access (.writeByte acquired.slot offset byte)
      acquired.writeAll rest

/-- `Reader::read`; whether the data may be looked at from now on. -/
def readerRead (guard : Epoch.Guard n) (i : ℕ) : Code n Bool :=
  if i < layout.total then do
    let tag : Tag ← access (.read guard.slot i)
    pure tag.canRead
  else pure false

def readerReadAll (guard : Epoch.Guard n) : List ℕ → Code n Unit
  | [] => pure ()
  | i :: rest => do
      let _ ← readerRead layout guard i
      readerReadAll guard rest

/-- What a user of the store does with one object. -/
inductive Request
  /-- Open a reader, read the slots and drop it. -/
  | read (slots : List ℕ)
  /-- Acquire a slot and write to it, then publish or drop it. -/
  | write (bytes : List (ℕ × UInt8)) (publish : Bool)
  | retire (i : ℕ)
  | drain

def Request.code [NeZero n] : Request → Code n Unit
  | .read slots => do
      match ← registry Epoch.guard with
      | .error _ => pure ()
      | .ok guard =>
          readerReadAll layout guard slots
          access (.epoch (.dropGuard guard.slot))
  | .write bytes publish => do
      match ← acquire layout with
      | none => pure ()
      | some acquired =>
          acquired.writeAll bytes
          if publish then
            let _ ← acquired.publish
            pure ()
          else acquired.drop
  | .retire i => do
      let _ ← Store.retire layout i
      pure ()
  | .drain => do
      let _ ← tryDrain layout
      pure ()

def client [NeZero n] : List Request → Code n Unit
  | [] => pure ()
  | request :: rest => do
      request.code layout
      client rest

/-- A store and any number of tasks, each with its own requests. -/
def start [NeZero n] {τ : Type} (state : State n τ) (requests : τ → List Request) :
    Machine.Config (interface n) Panic τ (State n τ) :=
  ⟨state, fun task => client layout (requests task)⟩

end Code

end Store

end DiskAnn.Inmem
