import DiskAnn.Garnet.Fsm

/-! # The Garnet provider

The provider of `provider.rs` over the free space map: vectors, quantized vectors, adjacency rows and
the two id maps under their terms in Garnet, the caches for the start point, and the switch to
quantized operation. Vectors of type `V`, quantized vectors of type `Q` and external ids of type `E`
are left open. Every callback of Garnet and every access to shared memory is one operation; the code
of the free space map keeps its own operations, and all callbacks share one oracle of failures. A
failed callback has no effect. A delete answers whether the key was there.

History that no operation reads: which ids a call under way has in hand.
-/

namespace DiskAnn.Garnet.Provider

open Machine Function

/-! ## Adjacency rows -/

/-- The value under `Term::Neighbors`: `max_degree` slots and the number of neighbors. -/
abbrev Row (maxDegree : ℕ) := Vector ℕ (maxDegree + 1)

namespace Row

variable {maxDegree : ℕ}

def zero : Row maxDegree := Vector.replicate (maxDegree + 1) 0

def len (row : Row maxDegree) : ℕ := row[maxDegree]

/-- The neighbors in a row: the words that are left after truncation. -/
def neighbors (row : Row maxDegree) : List ℕ := row.toList.take row.len

/-- The row that `set_neighbors` writes: behind the neighbors it holds what was in the scratch list,
which is resized with zeros. -/
def ofNeighbors (maxDegree : ℕ) (neighbors scratch : List ℕ) : Row maxDegree :=
  Vector.ofFn fun i =>
    if i.val = maxDegree then neighbors.length
    else (neighbors[i.val]?).getD ((scratch[i.val]?).getD 0)

/-- The loop of `append_vector`: the row it leaves, and the length unless it returned early. -/
def push : List ℕ → Row maxDegree → ℕ → Row maxDegree × Option ℕ
  | [], row, len => (row, some len)
  | nbr :: rest, row, len =>
      if len = maxDegree then (row, none)
      else if nbr ∈ row.toList.take len then push rest row len
      else push rest ((row.setIfInBounds len nbr).setIfInBounds maxDegree (len + 1)) (len + 1)

end Row

/-! ## State -/

/-- A quantizer: how many vectors it is trained on, what it compresses with before it is trained, what
training on some rows gives, and whether it can be serialized. Compression includes the conversion
to `f32`. -/
structure Quantizer (V Q : Type) where
  requiredVectors : ℕ
  initial : Option (V → Option Q)
  train : List V → Option (V → Option Q)
  serializes : Bool

structure Settings (V Q : Type) where
  maxDegree : ℕ
  quantizer : Option (Quantizer V Q)

inductive IndexState
  | noStartPoints
  | settingStartPoints
  | ready
  deriving DecidableEq, Repr

structure State (τ V Q E : Type) (maxDegree : ℕ) where
  fsm : Fsm.State τ
  vectors : ℕ → Option V
  quantized : ℕ → Option Q
  neighbors : ℕ → Option (Row maxDegree)
  /-- The external id of an internal one. -/
  extMap : ℕ → Option E
  /-- The internal id of an external one. -/
  intMap : E → Option ℕ
  attributes : ℕ → Option (List UInt8)
  /-- What the quantizer compresses with, once it is trained. -/
  codec : Option (V → Option Q)
  allQuantized : Bool
  backfillsCompleted : ℕ
  /-- The task that holds the lock around training. -/
  trainingLock : List (τ × Unit)
  startPointCache : Option V
  startPointQuantCache : Option Q
  neighborCache : Option (List ℕ)
  /-- The flag in the context of each task. -/
  quantizerReady : τ → Bool
  indexState : IndexState
  /-- History: the ids that a call has taken and not yet mapped, or has looked up to delete and not
  yet marked free. -/
  held : List (τ × ℕ)
  /-- History: the backfill tasks that have counted themselves in `backfills_completed`. -/
  finished : List ℕ

namespace State

variable {τ V Q E : Type} {maxDegree : ℕ} (s : State τ V Q E maxDegree)

def isTrained : Bool := s.codec.isSome

/-- `compress`, which fails while there is no trained quantizer. -/
def compress (v : V) : Option Q := s.codec.bind (· v)

/-- `is_quantized` -/
def isQuantized (settings : Settings V Q) : Bool :=
  settings.quantizer.isSome && s.allQuantized

/-- `start_points_exist` -/
def startPointsExist : Bool :=
  s.startPointCache.isSome && s.neighborCache.isSome

end State

inductive GarnetProviderError
  | garnet (error : GarnetError)
  | fsm (error : Fsm.FsmError)
  | startPoint
  | quantizer
  deriving DecidableEq, Repr

/-- A provider over an empty store. A quantizer that needs no training operates at once. -/
def State.empty {τ V Q : Type} (E : Type) (settings : Settings V Q) (fsm : Fsm.State τ) :
    State τ V Q E settings.maxDegree where
  fsm
  vectors _ := none
  quantized _ := none
  neighbors _ := none
  extMap _ := none
  intMap _ := none
  attributes _ := none
  codec := settings.quantizer.bind (·.initial)
  allQuantized := (settings.quantizer.bind (·.initial)).isSome
  backfillsCompleted := 0
  trainingLock := []
  startPointCache := none
  startPointQuantCache := none
  neighborCache := none
  quantizerReady _ := false
  indexState := .noStartPoints
  held := []
  finished := []

/-- `GarnetProvider::new` and the state of the index around it, over an empty store: the first
callback finds no start point, the second no quantizer; one that needs no training is written, and its
start point looked for. -/
def new {V Q : Type} (τ E : Type) (settings : Settings V Q) (fails : ℕ → Bool) :
    Except GarnetProviderError (State τ V Q E settings.maxDegree) :=
  let initial := settings.quantizer.bind (·.initial)
  if initial.isSome ∧ fails 2 = true then .error (.garnet .write)
  else
    let clock := if initial.isSome then 4 else if settings.quantizer.isSome then 2 else 1
    match Fsm.new τ (fun n => fails (n + clock)) (fun _ => none) initial.isSome
      (settings.quantizer.isNone || initial.isSome) with
    | .error error => .error (.fsm error)
    | .ok fsm => .ok (.empty E settings { fsm with clock := fsm.clock + clock })

/-! ## Atomic operations -/

inductive Op (V Q E : Type) (maxDegree : ℕ)
  | fsm (o : Fsm.Op)
  | readVector (id : ℕ)
  | writeVector (id : ℕ) (v : V)
  | deleteVector (id : ℕ)
  | readQuantized (id : ℕ)
  | writeQuantized (id : ℕ) (q : Q)
  | deleteQuantized (id : ℕ)
  | readNeighbors (id : ℕ)
  | writeNeighbors (id : ℕ) (row : Row maxDegree)
  /-- The `rmw_iid` of `set_neighbors`, whose closure also sets the cache of the start point. -/
  | setNeighbors (id : ℕ) (neighbors : List ℕ) (row : Row maxDegree)
  /-- The `rmw_iid` of `append_vector`. -/
  | appendVector (id : ℕ) (neighbors : List ℕ)
  | writeExtMap (id : ℕ) (external : E)
  | deleteExtMap (id : ℕ)
  | readIntMap (external : E)
  | writeIntMap (external : E) (id : ℕ)
  | deleteIntMap (external : E)
  | deleteAttributes (id : ℕ)
  /-- The callbacks that write the quantizer and its backfill byte; nothing reads them again. -/
  | writeQuantState
  | loadAllQuantized
  | storeAllQuantized
  | isTrained
  | compress (v : V)
  /-- `train`: whether it succeeded. -/
  | train (rows : List V)
  | tryLockTraining
  | unlockTraining
  /-- `fetch_add`, with the number of the task as history; it answers the count before. -/
  | fetchAddBackfills (taskIdx : ℕ)
  | loadStartPoint
  | storeStartPoint (v : V)
  | storeStartPointQuant (q : Q)
  | loadNeighborCache
  | storeNeighborCache (neighbors : List ℕ)
  | setQuantizerReady
  | loadIndexState
  /-- The compare-exchange from `NoStartPoints` to `SettingStartPoints`. -/
  | startSetting
  | storeIndexState (value : IndexState)

@[reducible] def Op.Res {V Q E : Type} {maxDegree : ℕ} : Op V Q E maxDegree → Type
  | fsm o => o.Res
  | readVector _ | loadStartPoint => Option V
  | readQuantized _ | compress _ => Option Q
  | readNeighbors _ => Option (Row maxDegree)
  | readIntMap _ => Option ℕ
  | loadNeighborCache => Option (List ℕ)
  | fetchAddBackfills _ => ℕ
  | loadIndexState => IndexState
  | storeAllQuantized | unlockTraining | storeStartPoint _ | storeStartPointQuant _
  | storeNeighborCache _ | setQuantizerReady | storeIndexState _ => Unit
  | _ => Bool

abbrev interface (V Q E : Type) (maxDegree : ℕ) : Interface := ⟨Op V Q E maxDegree, Op.Res⟩

namespace State

variable {τ V Q E : Type} [DecidableEq τ] {maxDegree : ℕ} (s : State τ V Q E maxDegree) (task : τ)

/-- A callback is made. -/
def tick : State τ V Q E maxDegree := { s with fsm := s.fsm.tick }

def setVector (id : ℕ) (v : Option V) : State τ V Q E maxDegree :=
  { s with vectors := update s.vectors id v }

def setQuantized (id : ℕ) (q : Option Q) : State τ V Q E maxDegree :=
  { s with quantized := update s.quantized id q }

def setRow (id : ℕ) (row : Option (Row maxDegree)) : State τ V Q E maxDegree :=
  { s with neighbors := update s.neighbors id row }

def setExternal (id : ℕ) (external : Option E) : State τ V Q E maxDegree :=
  { s with extMap := update s.extMap id external }

def setInternal [DecidableEq E] (external : E) (id : Option ℕ) : State τ V Q E maxDegree :=
  { s with intMap := update s.intMap external id }

def setAttributes (id : ℕ) (attributes : Option (List UInt8)) : State τ V Q E maxDegree :=
  { s with attributes := update s.attributes id attributes }

/-- History: the task has an id in hand. -/
def hold (id : ℕ) : State τ V Q E maxDegree := { s with held := s.held ++ [(task, id)] }

def release (id : ℕ) : State τ V Q E maxDegree := { s with held := s.held.erase (task, id) }

/-- History of what a task has in hand after an operation of the free space map. -/
def noteHeld : (o : Fsm.Op) → o.Res → State τ V Q E maxDegree
  | .rmw id used, some changed =>
      if used then (if changed then s.hold task id else s) else s.release task id
  | .returns (.nextId (.ok id)), _ => s.release task id
  | _, _ => s

def setNeighbors (id : ℕ) (neighbors : List ℕ) (row : Row maxDegree) : State τ V Q E maxDegree :=
  { s.setRow id (some row) with
    neighborCache := if id = 0 then some neighbors else s.neighborCache }

def appendVector (id : ℕ) (neighbors : List ℕ) : State τ V Q E maxDegree :=
  let row := (s.neighbors id).getD Row.zero
  let (row, len) := Row.push neighbors row (min row.len maxDegree)
  { s.setRow id (some row) with
    neighborCache :=
      match len with
      -- the early return of the closure leaves the cache alone
      | none => s.neighborCache
      | some len => if id = 0 then s.neighborCache.map fun _ => row.toList.take len
          else s.neighborCache }

end State

section Exec

variable {τ V Q E : Type} [DecidableEq τ] [DecidableEq E] {maxDegree : ℕ}

/-- A callback that changes the store unless it fails; it answers whether it succeeded. -/
def callback (fails : ℕ → Bool) (s : State τ V Q E maxDegree)
    (update : State τ V Q E maxDegree → State τ V Q E maxDegree × Bool) :
    Option (State τ V Q E maxDegree × Bool) :=
  some (if fails s.fsm.clock then (s.tick, false) else update s.tick)

/-- What each operation does. -/
def exec (settings : Settings V Q) (fails : ℕ → Bool) :
    Semantics (interface V Q E maxDegree) τ (State τ V Q E maxDegree) := fun task o s =>
  match o with
  | .fsm o => (Fsm.exec fails task o s.fsm).map fun out =>
      (({ s with fsm := out.1 } : State τ V Q E maxDegree).noteHeld task o out.2, out.2)
  | .readVector id => some (s.tick, if fails s.fsm.clock then none else s.vectors id)
  | .writeVector id v => callback fails s fun s => (s.setVector id (some v), true)
  | .deleteVector id => callback fails s fun s => (s.setVector id none, (s.vectors id).isSome)
  | .readQuantized id => some (s.tick, if fails s.fsm.clock then none else s.quantized id)
  | .writeQuantized id q => callback fails s fun s => (s.setQuantized id (some q), true)
  | .deleteQuantized id => callback fails s fun s =>
      (s.setQuantized id none, (s.quantized id).isSome)
  | .readNeighbors id => some (s.tick, if fails s.fsm.clock then none else s.neighbors id)
  | .writeNeighbors id row => callback fails s fun s => (s.setRow id (some row), true)
  | .setNeighbors id neighbors row => callback fails s fun s =>
      (s.setNeighbors id neighbors row, true)
  | .appendVector id neighbors => callback fails s fun s => (s.appendVector id neighbors, true)
  | .writeExtMap id external => callback fails s fun s => (s.setExternal id (some external), true)
  | .deleteExtMap id => callback fails s fun s => (s.setExternal id none, (s.extMap id).isSome)
  | .readIntMap external =>
      match if fails s.fsm.clock then none else s.intMap external with
      | none => some (s.tick, none)
      | some id => some (s.tick.hold task id, some id)
  | .writeIntMap external id => callback fails s fun s =>
      ((s.setInternal external (some id)).release task id, true)
  | .deleteIntMap external => callback fails s fun s =>
      (s.setInternal external none, (s.intMap external).isSome)
  | .deleteAttributes id => callback fails s fun s =>
      (s.setAttributes id none, (s.attributes id).isSome)
  | .writeQuantState => callback fails s fun s => (s, true)
  | .loadAllQuantized => some (s, s.allQuantized)
  | .storeAllQuantized => some ({ s with allQuantized := true }, ())
  | .isTrained => some (s, s.isTrained)
  | .compress v => some (s, s.compress v)
  | .train rows =>
      match settings.quantizer.bind fun quantizer => quantizer.train rows with
      | none => some (s, false)
      | some codec => some ({ s with codec := some codec }, true)
  | .tryLockTraining =>
      if s.trainingLock.isEmpty then
        some ({ s with trainingLock := s.trainingLock ++ [(task, ())] }, true)
      else some (s, false)
  | .unlockTraining => some ({ s with trainingLock := s.trainingLock.erase (task, ()) }, ())
  | .fetchAddBackfills taskIdx =>
      some ({ s with
        backfillsCompleted := s.backfillsCompleted + 1
        finished := s.finished ++ [taskIdx] }, s.backfillsCompleted)
  | .loadStartPoint => some (s, s.startPointCache)
  | .storeStartPoint v => some ({ s with startPointCache := some v }, ())
  | .storeStartPointQuant q => some ({ s with startPointQuantCache := some q }, ())
  | .loadNeighborCache => some (s, s.neighborCache)
  | .storeNeighborCache neighbors => some ({ s with neighborCache := some neighbors }, ())
  | .setQuantizerReady =>
      some ({ s with quantizerReady := update s.quantizerReady task true }, ())
  | .loadIndexState => some (s, s.indexState)
  | .startSetting =>
      if s.indexState = .noStartPoints then
        some ({ s with indexState := .settingStartPoints }, true)
      else some (s, false)
  | .storeIndexState value => some ({ s with indexState := value }, ())

end Exec

/-! ## Code -/

inductive Panic
  | fsm (reason : Fsm.Panic)
  /-- An adjacency list that is longer than the row. -/
  | sliceIndex
  deriving DecidableEq, Repr

abbrev Code (V Q E : Type) (maxDegree : ℕ) := Prog (interface V Q E maxDegree) Panic

section Code

variable {V Q E : Type} {maxDegree : ℕ}

/-- One atomic operation as code. -/
abbrev access (o : Op V Q E maxDegree) : Code V Q E maxDegree o.Res :=
  Prog.op (I := interface V Q E maxDegree) o

/-- Code of the free space map, run inside the provider. -/
def fsm {α : Type} (code : Fsm.Code α) : Code V Q E maxDegree α :=
  code.lift (J := interface V Q E maxDegree) Op.fsm (fun _ answer => answer) Panic.fsm

/-- The end of a call that holds a `ReuseGuard`, which is dropped. -/
def dropGuard (guard : Fsm.ReuseGuard) : Code V Q E maxDegree Unit := do
  let _ : Unit ← access (.fsm (.returns (.nextId (.ok guard.id))))
  access (.fsm .unlockBarrier)

variable (settings : Settings V Q)

/-- `is_quantized` -/
def isQuantized : Code V Q E maxDegree Bool :=
  match settings.quantizer with
  | none => pure false
  | some _ => access .loadAllQuantized

/-! ### Neighbors -/

/-- `get_neighbors`: whether the list was found, and the list. -/
def getNeighbors (id : ℕ) : Code V Q E maxDegree (Bool × List ℕ) := do
  let cached : Option (List ℕ) ← if id = 0 then access .loadNeighborCache else pure none
  match cached with
  | some neighbors => pure (true, neighbors)
  | none =>
      let row : Option (Row maxDegree) ← access (.readNeighbors id)
      match row with
      | none => pure (false, [])
      | some row => pure (true, row.neighbors)

/-- `set_neighbors` -/
def setNeighbors (id : ℕ) (neighbors scratch : List ℕ) :
    Code V Q E maxDegree (Except GarnetProviderError Unit) :=
  if maxDegree + 1 < neighbors.length then Prog.panic .sliceIndex
  else do
    let written : Bool ←
      access (.setNeighbors id neighbors (Row.ofNeighbors maxDegree neighbors scratch))
    pure (if written then .ok () else .error (.garnet .write))

/-- `append_vector` -/
def appendVector (id : ℕ) (neighbors : List ℕ) :
    Code V Q E maxDegree (Except GarnetProviderError Unit) := do
  let written : Bool ← access (.appendVector id neighbors)
  pure (if written then .ok () else .error (.garnet .write))

/-! ### The start point -/

/-- The end of both branches of `maybe_set_start_point`. -/
def fillCaches (v : V) (neighbors : List ℕ) : Code V Q E maxDegree (Except GarnetProviderError Unit) := do
  let _ : Unit ← access (.storeStartPoint v)
  let _ : Unit ← access (.storeNeighborCache neighbors)
  pure (.ok ())

/-- The branch of `maybe_set_start_point` for a start point that Garnet has. -/
def loadStartPoint (v : V) :
    Code V Q E maxDegree (Except GarnetProviderError Unit) := do
  let row : Option (Row maxDegree) ← access (.readNeighbors 0)
  match row with
  | none => pure (.error (.garnet .read))
  | some row =>
      if ← isQuantized settings then
        let quant : Option Q ← access (.readQuantized 0)
        match quant with
        | none => pure (.error (.garnet .read))
        | some quant =>
            let _ : Unit ← access (.storeStartPointQuant quant)
            fillCaches v row.neighbors
      else fillCaches v row.neighbors

variable (point : V)

/-- The last write of a new start point, and the caches. -/
def writeRow : Code V Q E maxDegree (Except GarnetProviderError Unit) := do
  let written : Bool ← access (.writeNeighbors 0 Row.zero)
  if !written then pure (.error (.garnet .write)) else fillCaches point []

/-- The branch of `maybe_set_start_point` that writes the start point, once it has id 0. -/
def writeStartPoint :
    Code V Q E maxDegree (Except GarnetProviderError Unit) := do
  let written : Bool ← access (.writeVector 0 point)
  if !written then pure (.error (.garnet .write))
  else if ← isQuantized settings then
    let quant : Option Q ← access (.compress point)
    match quant with
    | none => pure (.error .quantizer)
    | some quant =>
        let written : Bool ← access (.writeQuantized 0 quant)
        if !written then pure (.error (.garnet .write))
        else
          let _ : Unit ← access (.storeStartPointQuant quant)
          writeRow point
  else writeRow point

/-- `maybe_set_start_point` -/
def maybeSetStartPoint :
    Code V Q E maxDegree (Except GarnetProviderError Unit) := do
  let stored : Option V ← access (.readVector 0)
  match stored with
  | some v => loadStartPoint settings v
  | none =>
      match ← fsm Fsm.nextId with
      | .error error => pure (.error (.fsm error))
      | .ok guard =>
          if guard.id ≠ 0 then
            match ← fsm (Fsm.markFree guard.id) with
            | .error error =>
                dropGuard guard
                pure (.error (.fsm error))
            | .ok () =>
                dropGuard guard
                pure (.error .startPoint)
          else
            let result ← writeStartPoint settings point
            dropGuard guard
            pure result

/-- `ensure_index_ready_or_init`, with `maybe_set_start_point` as the initializer: the error it ends
with. -/
def ensureIndexReadyOrInit :
    Code V Q E maxDegree (Option GarnetProviderError) :=
  Prog.repeatUntil (fun _ => do
    let state : IndexState ← access .loadIndexState
    match state with
    | .ready => pure (.inr none)
    | .settingStartPoints => pure (.inl ())
    | .noStartPoints =>
        let exchanged : Bool ← access .startSetting
        if !exchanged then pure (.inl ())
        else
          match ← maybeSetStartPoint settings point with
          | .error error =>
              let _ : Unit ← access (.storeIndexState .noStartPoints)
              pure (.inr (some error))
          | .ok () =>
              let _ : Unit ← access (.storeIndexState .ready)
              pure (.inr none)) ()

/-! ### Elements -/

/-- The part of `set_element` that tells the caller to train the quantizer. -/
def noteReady (guard : Fsm.ReuseGuard) : Code V Q E maxDegree Unit :=
  match settings.quantizer with
  | none => pure ()
  | some quantizer =>
      if guard.shouldQuantize then pure ()
      else do
        let trained : Bool ← access .isTrained
        if trained then pure ()
        else
          let total : BitVec 64 ← access (.fsm .loadTotalUsed)
          if quantizer.requiredVectors < total.toNat then access .setQuantizerReady else pure ()

/-- The end of the closure of `set_element`: the two maps. -/
def insertMaps (id : ℕ) (external : E) : Code V Q E maxDegree (Except GarnetProviderError Unit) := do
  let written : Bool ← access (.writeExtMap id external)
  if !written then pure (.error (.garnet .write))
  else
    let written : Bool ← access (.writeIntMap external id)
    pure (if written then .ok () else .error (.garnet .write))

/-- The closure of `set_element`. -/
def insert (guard : Fsm.ReuseGuard) (external : E) (element : V) :
    Code V Q E maxDegree (Except GarnetProviderError Unit) := do
  let written : Bool ← access (.writeVector guard.id element)
  if !written then pure (.error (.garnet .write))
  else if settings.quantizer.isSome && guard.shouldQuantize then
    let quant : Option Q ← access (.compress element)
    match quant with
    | none => pure (.error .quantizer)
    | some quant =>
        let written : Bool ← access (.writeQuantized guard.id quant)
        if !written then pure (.error (.garnet .write)) else insertMaps guard.id external
  else insertMaps guard.id external

/-- `set_element` -/
def setElement (external : E) (element : V) :
    Code V Q E maxDegree (Except GarnetProviderError ℕ) := do
  match ← fsm Fsm.nextId with
  | .error error => pure (.error (.fsm error))
  | .ok guard =>
      noteReady settings guard
      match ← insert settings guard external element with
      | .ok () =>
          dropGuard guard
          pure (.ok guard.id)
      | .error error =>
          match ← fsm (Fsm.markFree guard.id) with
          | .error failure =>
              dropGuard guard
              pure (.error (.fsm failure))
          | .ok () =>
              dropGuard guard
              pure (.error error)

/-- `delete` -/
def delete (external : E) : Code V Q E maxDegree (Except GarnetProviderError Unit) := do
  let found : Option ℕ ← access (.readIntMap external)
  match found with
  | none => pure (.error (.garnet .read))
  | some id =>
      let outside : Bool ← access (.deleteExtMap id)
      let inside : Bool ← access (.deleteIntMap external)
      -- attributes and quantized vectors may not exist
      let _ : Bool ← access (.deleteAttributes id)
      let vector : Bool ← access (.deleteVector id)
      let _ : Bool ← access (.deleteQuantized id)
      match ← fsm (Fsm.markFree id) with
      | .error error => pure (.error (.fsm error))
      | .ok () => pure (if outside && inside && vector then .ok () else .error (.garnet .delete))

/-! ### Quantization -/

section Visit

variable {A : Type} (visit : ℕ → A → Code V Q E maxDegree (Bool × A))

/-- The loop of `visit_used` over the last `left` bits of a byte: whether it goes on. -/
def visitBits (byte : BitVec 8) : ℕ → ℕ → A → Code V Q E maxDegree (Bool × A)
  | 0, _, acc => pure (true, acc)
  | left + 1, id, acc =>
      if Fsm.bitUsed byte (8 - (left + 1)) then do
        let (going, acc) ← visit id acc
        if going then visitBits byte left (id + 1) acc else pure (false, acc)
      else visitBits byte left (id + 1) acc

/-- The loop over the last `left` bytes of a block. -/
def visitBytes (block : Fsm.Block) : ℕ → ℕ → A → Code V Q E maxDegree (Bool × A)
  | 0, _, acc => pure (true, acc)
  | left + 1, id, acc =>
      if block (Fsm.blockSizeBytes - (left + 1)) = 0 then visitBytes block left (id + 8) acc
      else do
        let (going, acc) ← visitBits visit (block (Fsm.blockSizeBytes - (left + 1))) 8 id acc
        if going then visitBytes block left (id + 8) acc else pure (false, acc)

/-- The loop over `left` blocks from `blockId` on. -/
def visitBlocks : ℕ → ℕ → A → Code V Q E maxDegree (Except Fsm.FsmError A)
  | 0, _, acc => pure (.ok acc)
  | left + 1, blockId, acc => do
      let block : Option Fsm.Block ← access (.fsm (.readBlock blockId))
      match block with
      | none => pure (.error (.garnet .read))
      | some block =>
          let (going, acc) ←
            visitBytes visit block Fsm.blockSizeBytes (blockId * Fsm.blockSizeIds) acc
          if going then visitBlocks left (blockId + 1) acc else pure (.ok acc)

/-- `visit_used` -/
def visitUsed (acc : A) : Code V Q E maxDegree (Except Fsm.FsmError A) := do
  let minter : Fsm.IdMinter ← access (.fsm .readMinter)
  visitBlocks visit (minter.maxBlock + 1) 0 acc

end Visit

/-- The closure of `train_quantizer` that gathers the rows. -/
def gatherRow (required : ℕ) (id : ℕ) (rows : List V) : Code V Q E maxDegree (Bool × List V) :=
  if id = 0 then pure (true, rows)
  else if required ≤ rows.length then pure (false, rows)
  else do
    let v : Option V ← access (.readVector id)
    match v with
    | none => pure (false, rows)
    | some v => pure (true, rows ++ [v])

/-- The part of `train_quantizer` behind its lock. -/
def trainLocked (quantizer : Quantizer V Q) : Code V Q E maxDegree Bool := do
  let trained : Bool ← access .isTrained
  if trained then pure false
  else
    match ← visitUsed (gatherRow quantizer.requiredVectors) [] with
    | .error _ => pure false
    | .ok rows =>
        if rows.length < quantizer.requiredVectors then pure false
        else
          let trained : Bool ← access (.train rows)
          if !trained || !quantizer.serializes then pure false
          else
            let written : Bool ← access .writeQuantState
            if !written then pure false
            else
              let _ : Unit ← access (.fsm .enableQuantization)
              pure true

/-- `train_quantizer` -/
def trainQuantizer : Code V Q E maxDegree Bool := do
  let locked : Bool ← access .tryLockTraining
  if !locked then pure false
  else
    let result ← (match settings.quantizer with
      | none => pure false
      | some quantizer => trainLocked quantizer)
    let _ : Unit ← access .unlockTraining
    pure result

/-- The loop of `backfill_quant_vectors` over `left` ids. -/
def backfillIds : ℕ → ℕ → Code V Q E maxDegree Unit
  | 0, _ => pure ()
  | left + 1, id => do
      let v : Option V ← access (.readVector id)
      match v with
      | none => backfillIds left (id + 1)
      | some v =>
          let q : Option Q ← access (.compress v)
          match q with
          | none => backfillIds left (id + 1)
          | some q =>
              let _ : Bool ← access (.writeQuantized id q)
              backfillIds left (id + 1)

/-- What the last backfill task does for the start point. -/
def backfillStartPoint : Code V Q E maxDegree Unit := do
  let v : Option V ← access .loadStartPoint
  match v with
  | none => pure ()
  | some v =>
      let q : Option Q ← access (.compress v)
      match q with
      | none => pure ()
      | some q =>
          let _ : Bool ← access (.writeQuantized 0 q)
          access (.storeStartPointQuant q)

/-- What the last backfill task does after its ids. -/
def finishBackfill : Code V Q E maxDegree Bool := do
  backfillStartPoint
  let _ : Unit ← access (.fsm .enableReuse)
  let saved : Bool ← access .writeQuantState
  if !saved then pure false
  else
    let _ : Unit ← access .storeAllQuantized
    pure true

/-- The ids `start_id..end_id` of a backfill task; `start_id` is a `u32`. -/
def backfillRange (maxId taskIdx taskCount : ℕ) : ℕ × ℕ :=
  let workCount := (maxId + 1 + taskCount - 1) / taskCount
  (workCount * taskIdx % 2 ^ 32, min (workCount * (taskIdx + 1)) (maxId + 1))

/-- `backfill_quant_vectors` -/
def backfillQuantVectors (taskIdx taskCount : ℕ) :
    Code V Q E maxDegree Bool :=
  match settings.quantizer with
  | none => pure false
  | some _ => do
      let maxId : ℕ ← access (.fsm .maxIdForBackfill)
      if Fsm.u32Max ≤ maxId then pure false
      else
        let taskCount := min taskCount (maxId + 1)
        if taskCount ≤ taskIdx then pure false
        else
          let (startId, endId) := backfillRange maxId taskIdx taskCount
          backfillIds (endId - startId) startId
          let completed : ℕ ← access (.fetchAddBackfills taskIdx)
          if completed + 1 = taskCount then finishBackfill else pure true

end Code

end DiskAnn.Garnet.Provider
