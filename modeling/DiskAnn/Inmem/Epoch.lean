import DiskAnn.Machine.Prog

/-! # The epoch registry of the in-memory provider

The registry of `epoch.rs`: guard slots holding the epoch of the reader registered in them, a
global epoch, a drain lock and four queues of retired ids. Every atomic access of the code is one
operation; `exec` says what it does. Beside the code's own fields the state keeps history that no
operation reads: which guard is live in which slot, and what each retired id was retired under.

A guard counts as live from the GUARD RECHECK load that confirms its epoch, which is no later than
the return of `guard`, to the store of its drop. A task stands for the life of one object after
another, so a thread that holds several objects at once is several tasks.
-/

namespace DiskAnn.Inmem.Epoch

open Machine Function

/-- `u64` and `usize` arithmetic wraps at this bound. -/
def wordSize : ℕ := 2 ^ 64

/-- An id in a retiring queue, with the guards that were live when it was pushed. -/
structure Retired (n : ℕ) where
  id : UInt32
  /-- How many ids had been retired before this one. -/
  number : ℕ
  /-- The global epoch at the push. -/
  epoch : ℕ
  /-- The guard that was live in each slot at the push. -/
  waiting : Fin n → Option ℕ

structure Registry (n : ℕ) where
  guards : Fin n → ℕ
  hint : ℕ
  epoch : ℕ
  drain : Bool
  retiring : Fin 4 → List (Retired n)
  /-- History: the guard that is live in each slot. -/
  live : Fin n → Option ℕ
  /-- History: how many guards have been handed out. -/
  handedOut : ℕ
  /-- History: how many ids have been pushed. -/
  pushes : ℕ
  /-- History: everything popped so far. -/
  popped : List (Retired n)
  /-- History: the queue that a `Drain` now alive refers to. -/
  draining : Option (Fin 4)

/-- `Registry::with_capacity`. -/
def Registry.withCapacity (n : ℕ) : Registry n where
  guards _ := 0
  hint := 0
  epoch := 1
  drain := false
  retiring _ := []
  live _ := none
  handedOut := 0
  pushes := 0
  popped := []
  draining := none

def queue (epoch : ℕ) : Fin 4 := Fin.ofNat 4 epoch

def lastQueue (epoch : ℕ) : Fin 4 := queue ((epoch + wordSize - 2) % wordSize)

/-- The atomic accesses of `guard_inner`, `can_advance`, `try_advance_inner`, `Guard` and `Drain`. -/
inductive Op (n : ℕ)
  | guardCheck
  | fetchAddHint
  | loadGuard (slot : Fin n)
  | casGuard (slot : Fin n) (epoch : ℕ)
  | guardRecheck (slot : Fin n) (epoch : ℕ)
  | storeGuard (slot : Fin n) (epoch : ℕ)
  | push (queue : Fin 4) (id : UInt32)
  | dropGuard (slot : Fin n)
  | tryLock
  | waitingCheck
  | scanGuard (slot : Fin n)
  | fetchAddEpoch
  | pop (queue : Fin 4)
  | len (queue : Fin 4)
  | unlock

@[reducible] def Op.Res {n : ℕ} : Op n → Type
  | guardCheck | fetchAddHint | loadGuard _ | guardRecheck _ _ => ℕ
  | casGuard _ _ | tryLock => Bool
  | storeGuard _ _ | push _ _ | dropGuard _ | unlock => Unit
  | waitingCheck | scanGuard _ | fetchAddEpoch | len _ => ℕ
  | pop _ => Option UInt32

abbrev interface (n : ℕ) : Interface := ⟨Op n, Op.Res⟩

namespace Registry

variable {n : ℕ} (s : Registry n)

/-- The guard whose epoch a GUARD RECHECK confirms is live from this load on. -/
def recheck (slot : Fin n) (epoch : ℕ) : Registry n :=
  if s.epoch = epoch then
    { s with live := update s.live slot (some s.handedOut), handedOut := s.handedOut + 1 }
  else s

def push (q : Fin 4) (id : UInt32) : Registry n :=
  { s with
    retiring := update s.retiring q (s.retiring q ++ [⟨id, s.pushes, s.epoch, s.live⟩])
    pushes := s.pushes + 1 }

def dropGuard (slot : Fin n) : Registry n :=
  { s with
    guards := update s.guards slot 0
    live := update s.live slot none }

def fetchAddEpoch : Registry n :=
  { s with epoch := (s.epoch + 1) % wordSize, draining := some (lastQueue s.epoch) }

def pop (q : Fin 4) : Registry n × Option UInt32 :=
  match s.retiring q with
  | [] => (s, none)
  | entry :: rest =>
      ({ s with
          retiring := update s.retiring q rest
          popped := s.popped ++ [entry] }, some entry.id)

variable {s} in
theorem pop_nil {q : Fin 4} (empty : s.retiring q = []) : s.pop q = (s, none) := by
  simp [pop, empty]

variable {s} in
theorem pop_cons {q : Fin 4} {entry : Retired n} {rest : List (Retired n)}
    (head : s.retiring q = entry :: rest) : s.pop q =
      ({ s with
          retiring := update s.retiring q rest
          popped := s.popped ++ [entry] }, some entry.id) := by
  simp [pop, head]

end Registry

/-- What each atomic access does. None of them waits: the drain lock is only ever tried. -/
def exec {n : ℕ} {τ : Type} : Semantics (interface n) τ (Registry n) := fun _ o s =>
  match o with
  | .guardCheck => some (s, s.epoch)
  | .fetchAddHint => some ({ s with hint := (s.hint + 1) % wordSize }, s.hint)
  | .loadGuard slot => some (s, s.guards slot)
  | .casGuard slot epoch =>
      if s.guards slot = 0 then
        some ({ s with guards := update s.guards slot epoch }, true)
      else some (s, false)
  | .guardRecheck slot epoch => some (s.recheck slot epoch, s.epoch)
  | .storeGuard slot epoch => some ({ s with guards := update s.guards slot epoch }, ())
  | .push q id => some (s.push q id, ())
  | .dropGuard slot => some (s.dropGuard slot, ())
  | .tryLock => if s.drain then some (s, false) else some ({ s with drain := true }, true)
  | .waitingCheck => some (s, s.epoch)
  | .scanGuard slot => some (s, s.guards slot)
  | .fetchAddEpoch => some (s.fetchAddEpoch, s.epoch)
  | .pop q => some (s.pop q)
  | .len q => some (s, (s.retiring q).length)
  | .unlock => some ({ s with drain := false, draining := none }, ())

/-- What the code can panic with. -/
inductive Panic
  /-- "we've managed to go through nearly `u64::MAX` ids" -/
  | epochExhausted
  /-- The debug assertion of `try_advance_inner`: "concurrency violation". -/
  | concurrencyViolation
  deriving DecidableEq, Repr

abbrev Code (n : ℕ) := Prog (interface n) Panic

/-- One atomic access as code. -/
abbrev access {n : ℕ} (o : Op n) : Code n o.Res := Prog.op (I := interface n) o

structure Guard (n : ℕ) where
  slot : Fin n
  retire : Fin 4

structure Drain where
  queue : Fin 4

/-- "all available registry guard slots are occupied" -/
inductive Unavailable
  | unavailable
  deriving DecidableEq, Repr

section Code

variable {n : ℕ}

/-- The recheck loop after a slot is claimed; answers the confirmed epoch and whether it moved. -/
def settle (slot : Fin n) (epoch : ℕ) : Code n (ℕ × Bool) :=
  Prog.repeatUntil (fun (epoch, reset) => do
    let current : ℕ ← access (.guardRecheck slot epoch)
    if current = epoch then pure (.inr (epoch, reset)) else pure (.inl (current, true)))
    (epoch, false)

/-- The slots of `guard_inner` in the order it tries them. -/
def register [NeZero n] (epoch hint : ℕ) : List ℕ → Code n (Except Unavailable (Guard n))
  | [] => pure (.error .unavailable)
  | i :: rest => do
      let slot := Fin.ofNat n ((hint + i) % wordSize)
      let guarded : ℕ ← access (.loadGuard slot)
      if guarded = 0 then
        let claimed : Bool ← access (.casGuard slot epoch)
        if claimed then
          let (epoch, reset) ← settle slot epoch
          if reset then
            let _ : Unit ← access (.storeGuard slot epoch)
          pure (.ok ⟨slot, queue epoch⟩)
        else register epoch hint rest
      else register epoch hint rest

/-- `Registry::guard`. -/
def guard [NeZero n] : Code n (Except Unavailable (Guard n)) := do
  let epoch : ℕ ← access .guardCheck
  let hint : ℕ ← access .fetchAddHint
  register epoch hint (List.range n)

/-- The scan of `can_advance` over the remaining slots. -/
def scan (least : ℕ) : List (Fin n) → Code n ℕ
  | [] => pure least
  | slot :: rest => do
      let guarded : ℕ ← access (.scanGuard slot)
      scan (if guarded ≠ 0 then min least guarded else least) rest

def canAdvance : Code n (Bool × ℕ) := do
  let current : ℕ ← access .waitingCheck
  let least ← scan current (List.finRange n)
  pure (least == current, least)

/-- `Registry::try_advance`; a panic unwinds through the guard of the drain lock. -/
def tryAdvance : Code n (Option Drain) := do
  let locked : Bool ← access .tryLock
  if locked then
    let (can, current) ← canAdvance
    if current = wordSize - 1 then
      let _ : Unit ← access .unlock
      Prog.panic .epochExhausted
    else if can then
      let previous : ℕ ← access .fetchAddEpoch
      if previous = current then pure (some ⟨lastQueue current⟩)
      else Prog.panic .concurrencyViolation
    else
      let _ : Unit ← access .unlock
      pure none
  else pure none

def Guard.retireAll (g : Guard n) : List UInt32 → Code n Unit
  | [] => pure ()
  | id :: rest => do
      let _ : Unit ← access (.push g.retire id)
      g.retireAll rest

/-- Take up to `limit` ids from a drain. -/
def Drain.popUpTo (d : Drain) : ℕ → Code n Unit
  | 0 => pure ()
  | limit + 1 => do
      let _ : ℕ ← access (.len d.queue)
      let next : Option UInt32 ← access (.pop d.queue)
      match next with
      | none => pure ()
      | some _ => d.popUpTo limit

/-- What a user of the registry does with one object: hold a guard and retire ids under it, or
try to advance and pop some of what the drain offers. -/
inductive Request
  | guard (ids : List UInt32)
  | drain (pops : ℕ)

def Request.code [NeZero n] : Request → Code n Unit
  | .guard ids => do
      match ← Epoch.guard with
      | .error _ => pure ()
      | .ok g =>
          g.retireAll ids
          access (.dropGuard g.slot)
  | .drain pops => do
      match ← tryAdvance with
      | none => pure ()
      | some d =>
          d.popUpTo pops
          access .unlock

def client [NeZero n] : List Request → Code n Unit
  | [] => pure ()
  | request :: rest => do
      request.code
      client rest

/-- A new registry and any number of tasks, each with its own requests. -/
def start [NeZero n] {τ : Type} (requests : τ → List Request) :
    Config (interface n) Panic τ (Registry n) :=
  ⟨.withCapacity n, fun task => client (requests task)⟩

end Code

end DiskAnn.Inmem.Epoch
