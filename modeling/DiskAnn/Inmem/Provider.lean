import DiskAnn.Inmem.Store

/-! # The in-memory provider and its id maps

The id map of `ids.rs` and the calls of `provider.rs` that change it. External ids of type `M` go
forward to internal ids through a concurrent hash map, whose entries are locked by shard; internal
ids go back through blocks of `shardSize` entries with one lock each. Taking a lock and looking at
the entry behind it is one operation, as nobody else can change the entry in between; the slot store
underneath keeps its own operations.

History that no operation reads: whether a task has written one of the maps since its current call
began.
-/

namespace DiskAnn.Inmem.Provider

open Machine Function

/-! ## State -/

/-- `SHARD_SIZE`: the entries of the backward map behind one lock. -/
def shardSize : ℕ := 1024

structure State (n : ℕ) (τ M : Type) where
  store : Store.State n τ
  forward : M → Option ℕ
  backward : ℕ → Option M
  forwardLocks : ℕ → Bool
  backwardLocks : ℕ → Bool
  /-- History: whether the task has written one of the maps in its current call. -/
  edited : τ → Bool

/-- A representation of elements: the bytes that `set` writes, one by one, and how it ends. -/
structure Layer (E : Type) where
  bytes : ℕ
  set : E → List (ℕ × UInt8) × Except String Unit

structure Config where
  capacity : ℕ
  maxDegree : ℕ
  freelistRecycleCapacity : Option ℕ

inductive ProviderError
  | settingStartPoints (message : String)
  | creatingStore (error : Store.StoreError)
  deriving DecidableEq, Repr

/-- One row of the matrix of start points. -/
def startRow {E : Type} (layer : Layer E) (point : E) : Except ProviderError (List UInt8) :=
  let (writes, result) := layer.set point
  match result with
  | .ok () =>
      .ok (writes.foldl (fun row write => row.set write.1 write.2) (List.replicate layer.bytes 0))
  | .error message => .error (.settingStartPoints message)

/-- A provider over a store that was just created: both maps are empty and nothing is locked. -/
def State.empty {n : ℕ} {τ : Type} (M : Type) (store : Store.State n τ) : State n τ M where
  store
  forward _ := none
  backward _ := none
  forwardLocks _ := false
  backwardLocks _ := false
  edited _ := false

/-- `Provider::new`. The id map gets the capacity that the store has for unfrozen slots. -/
def new (n : ℕ) (τ M : Type) {E : Type} (layer : Layer E) (config : Config)
    (startPoints : List E) : Except ProviderError (Store.Layout × State n τ M) := do
  let rows ← startPoints.mapM (startRow layer)
  let storeConfig : Store.Config :=
    ⟨config.capacity, layer.bytes, config.maxDegree, config.freelistRecycleCapacity.getD 1024⟩
  match Store.new n τ storeConfig ⟨layer.bytes, rows⟩ with
  | .ok (layout, store) => pure (layout, .empty M store)
  | .error error => throw (.creatingStore error)

inductive InsertError
  | outOfBounds
  | externalExists
  | internalExists
  deriving DecidableEq, Repr

inductive SetError
  /-- "could not allocate a new slot" -/
  | couldNotAllocate
  | layer (message : String)
  | insert (error : InsertError)
  deriving DecidableEq, Repr

inductive DeleteError
  /-- "id already deleted" -/
  | alreadyDeleted
  | retire (error : Store.RetireError)
  deriving DecidableEq, Repr

/-- What a call returns. -/
inductive Event
  | insert (result : Except InsertError Unit)
  | setElement (result : Except SetError ℕ)
  | delete (result : Except DeleteError Unit)

def Event.failed : Event → Bool
  | insert (.error _) | setElement (.error _) | delete (.error _) => true
  | _ => false

/-! ## Atomic operations -/

inductive Op (n : ℕ) (M : Type)
  | store (o : Store.Op n)
  /-- `DashMap::entry`: lock the shard of an external id and look the id up. -/
  | lockForward (external : M)
  | unlockForward (external : M)
  /-- `VacantEntry::insert`, whose reference into the shard is dropped at once. -/
  | insertForward (external : M) (internal : ℕ)
  /-- `OccupiedEntry::remove`, which consumes the entry. -/
  | removeForward (external : M)
  /-- `RwLock::write` of the block of an internal id and a look at its entry. -/
  | lockBackward (internal : ℕ)
  | setBackward (internal : ℕ) (entry : Option M)
  | unlockBackward (internal : ℕ)
  /-- History: a call returns. -/
  | returns (event : Event)

@[reducible] def Op.Res {n : ℕ} {M : Type} : Op n M → Type
  | store o => o.Res
  | lockForward _ => Option ℕ
  | lockBackward _ => Option M
  | unlockForward _ | insertForward _ _ | removeForward _ | setBackward _ _ | unlockBackward _
  | returns _ => Unit

abbrev interface (n : ℕ) (M : Type) : Interface := ⟨Op n M, Op.Res⟩

/-- What each operation does; `shard` is where the hash map keeps an external id. -/
def exec {n : ℕ} {τ M : Type} [DecidableEq τ] [DecidableEq M] (layout : Store.Layout)
    (shard : M → ℕ) : Semantics (interface n M) τ (State n τ M) := fun task o s =>
  match o with
  | .store o => (Store.exec layout task o s.store).map fun out => ({ s with store := out.1 }, out.2)
  | .lockForward external =>
      if s.forwardLocks (shard external) then none
      else some ({ s with forwardLocks := update s.forwardLocks (shard external) true },
        s.forward external)
  | .unlockForward external =>
      some ({ s with forwardLocks := update s.forwardLocks (shard external) false }, ())
  | .insertForward external internal =>
      some ({ s with
        forward := update s.forward external (some internal)
        forwardLocks := update s.forwardLocks (shard external) false
        edited := update s.edited task true }, ())
  | .removeForward external =>
      some ({ s with
        forward := update s.forward external none
        forwardLocks := update s.forwardLocks (shard external) false
        edited := update s.edited task true }, ())
  | .lockBackward internal =>
      if s.backwardLocks (internal / shardSize) then none
      else some ({ s with
        backwardLocks := update s.backwardLocks (internal / shardSize) true },
        s.backward internal)
  | .setBackward internal entry =>
      some ({ s with
        backward := update s.backward internal entry
        edited := update s.edited task true }, ())
  | .unlockBackward internal =>
      some ({ s with
        backwardLocks := update s.backwardLocks (internal / shardSize) false }, ())
  | .returns event =>
      some (match event with
        | .insert _ => s
        | _ => { s with edited := update s.edited task false }, ())

/-! ## Code -/

/-- What the code can panic with. -/
inductive Panic
  | store (reason : Store.Panic)
  /-- "id removed improperly" -/
  | removedImproperly (internal : ℕ)
  /-- An index past the blocks of the backward map. -/
  | indexOutOfBounds
  deriving DecidableEq, Repr

abbrev Code (n : ℕ) (M : Type) := Prog (interface n M) Panic

/-- One atomic operation as code. -/
abbrev access {n : ℕ} {M : Type} (o : Op n M) : Code n M o.Res := Prog.op (I := interface n M) o

/-- Code of the store, run inside the provider. -/
def store {n : ℕ} {M α : Type} (code : Store.Code n α) : Code n M α :=
  code.lift (J := interface n M) Op.store (fun _ answer => answer) Panic.store

/-- An `Entry` holds the locks of both its ids. -/
structure Entry (M : Type) where
  external : M
  internal : ℕ

section Code

variable {n : ℕ} {M E : Type} (layout : Store.Layout) (layer : Layer E)

/-- `IdMap::insert`. -/
def insert (external : M) (internal : ℕ) : Code n M (Except InsertError Unit) :=
  if internal < layout.unfrozen then do
    let found : Option ℕ ← access (.lockForward external)
    match found with
    | some _ =>
        let _ : Unit ← access (.unlockForward external)
        pure (.error .externalExists)
    | none =>
        let entry : Option M ← access (.lockBackward internal)
        match entry with
        | some _ =>
            let _ : Unit ← access (.unlockBackward internal)
            let _ : Unit ← access (.unlockForward external)
            pure (.error .internalExists)
        | none =>
            let _ : Unit ← access (.setBackward internal (some external))
            let _ : Unit ← access (.insertForward external internal)
            let _ : Unit ← access (.unlockBackward internal)
            pure (.ok ())
  else pure (.error .outOfBounds)

/-- `IdMap::occupied_entry`; a failed assertion unwinds through both locks. -/
def occupiedEntry (external : M) : Code n M (Option (Entry M)) := do
  let found : Option ℕ ← access (.lockForward external)
  match found with
  | none =>
      let _ : Unit ← access (.unlockForward external)
      pure none
  | some internal =>
      if internal / shardSize < (layout.unfrozen + shardSize - 1) / shardSize then
        let entry : Option M ← access (.lockBackward internal)
        match entry with
        | some _ => pure (some ⟨external, internal⟩)
        | none =>
            let _ : Unit ← access (.unlockBackward internal)
            let _ : Unit ← access (.unlockForward external)
            Prog.panic (.removedImproperly internal)
      else
        let _ : Unit ← access (.unlockForward external)
        Prog.panic .indexOutOfBounds

/-- `Entry::delete`. -/
def Entry.delete (entry : Entry M) : Code n M Unit := do
  let _ : Unit ← access (.removeForward entry.external)
  let _ : Unit ← access (.setBackward entry.internal none)
  let _ : Unit ← access (.unlockBackward entry.internal)
  pure ()

/-- The drop of an `Entry`, field by field. -/
def Entry.drop (entry : Entry M) : Code n M Unit := do
  let _ : Unit ← access (.unlockForward entry.external)
  let _ : Unit ← access (.unlockBackward entry.internal)
  pure ()

/-- `Provider::set_element`; an error drops the slot. -/
def setElement (id : M) (element : E) : Code n M (Except SetError ℕ) := do
  match ← store (Store.acquire layout) with
  | none => pure (.error .couldNotAllocate)
  | some slot =>
      let (writes, result) := layer.set element
      store (slot.writeAll writes)
      match result with
      | .error message =>
          store slot.drop
          pure (.error (.layer message))
      | .ok () =>
          let inserted ← insert layout id slot.slot
          let _ : Unit ← access (.returns (.insert inserted))
          match inserted with
          | .error error =>
              store slot.drop
              pure (.error (.insert error))
          | .ok () =>
              let id ← store slot.publish
              pure (.ok id)

/-- `Provider::delete`. -/
def delete [NeZero n] (gid : M) : Code n M (Except DeleteError Unit) := do
  match ← occupiedEntry layout gid with
  | none => pure (.error .alreadyDeleted)
  | some entry =>
      match ← store (Store.retire layout entry.internal) with
      | .ok () =>
          entry.delete
          pure (.ok ())
      | .error error =>
          entry.drop
          pure (.error (.retire error))

inductive Request (M E : Type)
  | setElement (id : M) (element : E)
  | delete (id : M)

def Request.code [NeZero n] : Request M E → Code n M Unit
  | .setElement id element => do
      let result ← Provider.setElement layout layer id element
      access (.returns (.setElement result))
  | .delete id => do
      let result ← Provider.delete layout id
      access (.returns (.delete result))

def client [NeZero n] : List (Request M E) → Code n M Unit
  | [] => pure ()
  | request :: rest => do
      request.code layout layer
      client rest

/-- A provider and any number of tasks, each with its own calls. -/
def start [NeZero n] {τ : Type} (state : State n τ M) (requests : τ → List (Request M E)) :
    Machine.Config (interface n M) Panic τ (State n τ M) :=
  ⟨state, fun task => client layout layer (requests task)⟩

end Code

end DiskAnn.Inmem.Provider
