import DiskAnn.Machine.Protocol

/-! # Handing out work

`DynamicBalancer` of `async_tools.rs`: workers claim the items of a slice by adding to a shared counter,
and put back what they added when no item was left. Whatever the interleaving, the counter is the number
of items handed out and of workers that still have to put back; the latter only begin when all items
are handed out.
-/

namespace DiskAnn.DynamicBalancer

open Machine List Function Protocol

/-- The atomic operations on `current`. -/
inductive Op
  | fetchAdd
  | fetchSub
  deriving DecidableEq

def interface : Interface := ⟨Op, fun _ => BitVec 64⟩

/-- `std::process::abort` -/
inductive Abort
  | wrapped

/-- The value that was there. -/
def fetchAdd : Prog interface Abort (BitVec 64) := Prog.op (I := interface) .fetchAdd

def fetchSub : Prog interface Abort (BitVec 64) := Prog.op (I := interface) .fetchSub

variable {T τ : Type} (items : List T)

/-- What `next` does with the value it has found. -/
def settle (i : BitVec 64) : Prog interface Abort (Option (T × ℕ)) :=
  match items[i.toNat]? with
  | some v => pure (some (v, i.toNat))
  | none =>
      if i = BitVec.allOnes 64 then .panic .wrapped
      else do
        let _ ← fetchSub
        pure none

def next : Prog interface Abort (Option (T × ℕ)) := do
  let i ← fetchAdd
  settle items i

def iteration (_ : Unit) : Prog interface Abort (Unit ⊕ Unit) := do
  let _ ← next items
  pure (.inl ())

/-- A worker calls `next` again and again; one that stops is not scheduled any more. -/
def worker : Prog interface Abort Unit := Prog.repeatUntil (iteration items) ()

/-- The counter, and every operation so far with the value it has found. -/
structure State (τ : Type) where
  current : BitVec 64
  history : List (τ × Op × BitVec 64)

def exec : Semantics interface τ (State τ) := fun task o s => match o with
  | .fetchAdd => some (⟨s.current + 1, s.history ++ [(task, .fetchAdd, s.current)]⟩, s.current)
  | .fetchSub => some (⟨s.current - 1, s.history ++ [(task, .fetchSub, s.current)]⟩, s.current)

/-- `new`, and any number of workers. -/
def start : Config interface Abort τ (State τ) := ⟨⟨0, []⟩, fun _ => worker items⟩

/-- An item that is handed out to a worker. -/
def claim (event : τ × Op × BitVec 64) : Option (τ × ℕ) :=
  if event.2.1 = .fetchAdd ∧ event.2.2.toNat < items.length then some (event.1, event.2.2.toNat)
  else none

/-- What has been handed out, to whom. -/
def claims (s : State τ) : List (τ × ℕ) := s.history.filterMap (claim items)

/-- The operation has not taken the counter past an end of its range. -/
def NotWrapped : τ × Op × BitVec 64 → Prop
  | (_, .fetchAdd, i) => i.toNat + 1 < 2 ^ 64
  | (_, .fetchSub, i) => 0 < i.toNat

/-- What is to hold of every state: items are handed out once and in order, all of them when a worker
is answered that none is left, and no operation wraps. -/
structure HandsOut (s : State τ) : Prop where
  in_order : ∃ count ≤ items.length, (claims items s).map (·.2) = range count
  complete : ∀ worker i, (worker, .fetchAdd, i) ∈ s.history → items.length ≤ i.toNat →
    (claims items s).map (·.2) = range items.length
  not_wrapped : ∀ event ∈ s.history, NotWrapped event

/-! ## The protocol -/

/-- How far a worker is in `next`. -/
inductive Token
  | idle
  /-- Has to put back what it added. -/
  | failing
  deriving DecidableEq

def protocol : Protocol interface Abort Token where
  pre token
    | .fetchAdd => token = .idle
    | .fetchSub => token = .failing
  post _ o i token' := match o with
    | .fetchAdd => i ≠ BitVec.allOnes 64 ∧
        token' = if i.toNat < items.length then .idle else .failing
    | .fetchSub => token' = .idle
  mayPanic _ _ := False

theorem settle_of_lt {i : BitVec 64} (left : i.toNat < items.length) :
    settle items i = .ret (some (items[i.toNat], i.toNat)) := by
  rw [settle, getElem?_eq_getElem left]
  rfl

theorem wp_settle {i : BitVec 64} (number : i ≠ BitVec.allOnes 64) :
    (protocol items).wp (if i.toNat < items.length then .idle else .failing) (settle items i)
      fun token _ => token = .idle := by
  by_cases left : i.toNat < items.length
  · rw [settle_of_lt items left, if_pos left]
    exact wp_ret rfl
  · rw [settle, getElem?_eq_none (not_lt.mp left), if_neg left]
    rw [if_neg number]
    refine wp_op rfl ?_
    rintro _ token' rfl
    exact wp_ret rfl

theorem wp_next :
    (protocol items).wp .idle (next items) fun token _ => token = .idle := by
  refine wp_op rfl ?_
  rintro i token' ⟨number, rfl⟩
  exact wp_settle items number

theorem wp_worker (Q : Token → Unit → Prop) : (protocol items).wp .idle (worker items) Q := by
  refine wp_repeatUntil (fun token _ => token = .idle) ?_ rfl
  rintro token _ rfl
  refine wp_seq (wp_next items) ?_
  rintro token' _ rfl
  exact wp_ret rfl

/-! ## The invariant -/

variable [Fintype τ] [DecidableEq τ]

/-- The workers that have to put back. -/
def pending (tokens : τ → Token) : ℕ := (Finset.univ.filter (tokens · = .failing)).card

structure Inv (s : State τ) (tokens : τ → Token) : Prop where
  counter : s.current.toNat = (claims items s).length + pending tokens
  in_order : (claims items s).map (·.2) = range (claims items s).length
  count_le : (claims items s).length ≤ items.length
  exhausted : ∀ worker, tokens worker = .failing → (claims items s).length = items.length
  complete : ∀ worker i, (worker, .fetchAdd, i) ∈ s.history → items.length ≤ i.toNat →
    (claims items s).length = items.length
  not_wrapped : ∀ event ∈ s.history, NotWrapped event

section Pending

variable {tokens : τ → Token} {task : τ}

theorem pending_failing (idle : tokens task = .idle) :
    pending (update tokens task .failing) = pending tokens + 1 := by
  have grown : Finset.univ.filter (update tokens task .failing · = .failing) =
      insert task (Finset.univ.filter (tokens · = .failing)) := by
    ext other
    by_cases here : other = task
    · simp [here]
    · simp [here]
  rw [pending, grown, Finset.card_insert_of_notMem (by simp [idle]), pending]

theorem pending_idle (failing : tokens task = .failing) :
    pending (update tokens task .idle) + 1 = pending tokens := by
  have back : update (update tokens task .idle) task .failing = tokens := by
    rw [update_idem, ← failing, update_eq_self]
  rw [← pending_failing (update_self ..), back]

omit [DecidableEq τ] in
theorem pending_lt (idle : tokens task = .idle) : pending tokens < Fintype.card τ := by
  refine Finset.card_lt_card ((Finset.filter_ssubset).mpr ⟨task, Finset.mem_univ _, ?_⟩)
  simp [idle]

omit [DecidableEq τ] in
theorem pending_eq_zero (none : ∀ worker, tokens worker ≠ .failing) : pending tokens = 0 := by
  rw [pending, Finset.filter_false_of_mem fun worker _ => none worker, Finset.card_empty]

end Pending

omit [Fintype τ] [DecidableEq τ] in
theorem claims_append (s : State τ) (current : BitVec 64) (event : τ × Op × BitVec 64) :
    claims items ⟨current, s.history ++ [event]⟩ = claims items s ++ (claim items event).toList := by
  cases taken : claim items event <;> simp [claims, taken]

section Step

variable {items} {s : State τ} {tokens : τ → Token} {task : τ} (inv : Inv items s tokens)
include inv

omit [DecidableEq τ] in
/-- While an item is left, no worker has to put back. -/
theorem Inv.none_failing (left : s.current.toNat < items.length)
    (worker : τ) : tokens worker ≠ .failing := by
  intro failing
  have all := inv.exhausted worker failing
  have counter := inv.counter
  omega

omit [DecidableEq τ] in
/-- The next item is handed out. -/
theorem Inv.claimed (left : s.current.toNat < items.length)
    (room : s.current.toNat + 1 < 2 ^ 64) :
    Inv items ⟨s.current + 1, s.history ++ [(task, .fetchAdd, s.current)]⟩ tokens := by
  have counter := inv.counter
  have none := pending_eq_zero (inv.none_failing left)
  have taken : claim items (task, .fetchAdd, s.current) = some (task, s.current.toNat) :=
    if_pos ⟨rfl, left⟩
  have grown : claims items ⟨s.current + 1, s.history ++ [(task, .fetchAdd, s.current)]⟩ =
      claims items s ++ [(task, s.current.toNat)] := by
    rw [claims_append, taken, Option.toList_some]
  have added : (s.current + 1).toNat = s.current.toNat + 1 := by
    exact Nat.mod_eq_of_lt room
  have index : s.current.toNat = (claims items s).length := by omega
  refine ⟨?_, ?_, ?_, fun worker failing => ?_, fun worker i mem refused => ?_,
    fun event mem => ?_⟩
  · rw [grown, length_append, length_singleton, added]
    omega
  · rw [grown, map_append, inv.in_order, length_append, length_singleton,
      range_succ, map_singleton, index]
  · rw [grown, length_append, length_singleton]
    omega
  · exact absurd failing (inv.none_failing left worker)
  · rcases mem_append.mp mem with old | new
    · have all := inv.complete worker i old refused
      omega
    · obtain ⟨-, same⟩ := Prod.mk.inj (mem_singleton.mp new)
      obtain ⟨-, rfl⟩ := Prod.mk.inj same
      omega
  · rcases mem_append.mp mem with old | new
    · exact inv.not_wrapped event old
    · obtain rfl := mem_singleton.mp new
      exact room

/-- No item is left; the worker has to put back what it added. -/
theorem Inv.refused (idle : tokens task = .idle)
    (gone : items.length ≤ s.current.toNat) (room : s.current.toNat + 1 < 2 ^ 64) :
    Inv items ⟨s.current + 1, s.history ++ [(task, .fetchAdd, s.current)]⟩
      (update tokens task .failing) := by
  have counter := inv.counter
  have most := inv.count_le
  have same : claims items ⟨s.current + 1, s.history ++ [(task, .fetchAdd, s.current)]⟩ =
      claims items s := by
    have taken : claim items (task, .fetchAdd, s.current) = none := if_neg fun both => absurd both.2 (not_lt.mpr gone)
    rw [claims_append, taken, Option.toList_none, append_nil]
  have added : (s.current + 1).toNat = s.current.toNat + 1 := by
    exact Nat.mod_eq_of_lt room
  have all : (claims items s).length = items.length := by
    by_cases some : ∃ worker, tokens worker = .failing
    · obtain ⟨worker, failing⟩ := some
      exact inv.exhausted worker failing
    · have none := pending_eq_zero (not_exists.mp some)
      omega
  refine ⟨?_, ?_, ?_, fun _ _ => ?_, fun _ _ _ _ => ?_, fun event mem => ?_⟩
  · rw [same, pending_failing idle, added]
    omega
  · rw [same]
    exact inv.in_order
  · rw [same]
    exact most
  · rw [same]
    exact all
  · rw [same]
    exact all
  · rcases mem_append.mp mem with old | new
    · exact inv.not_wrapped event old
    · obtain rfl := mem_singleton.mp new
      exact room

/-- A worker puts back what it added. -/
theorem Inv.put_back (failing : tokens task = .failing) :
    Inv items ⟨s.current - 1, s.history ++ [(task, .fetchSub, s.current)]⟩
      (update tokens task .idle) := by
  have counter := inv.counter
  have fewer := pending_idle failing
  have all := inv.exhausted task failing
  have same : claims items ⟨s.current - 1, s.history ++ [(task, .fetchSub, s.current)]⟩ =
      claims items s := by
    have taken : claim items (task, .fetchSub, s.current) = none := if_neg fun both => by cases both.1
    rw [claims_append, taken, Option.toList_none, append_nil]
  have subtracted : (s.current - 1).toNat = s.current.toNat - 1 := by
    change (2 ^ 64 - 1 + s.current.toNat) % 2 ^ 64 = _
    omega
  refine ⟨?_, ?_, ?_, fun _ _ => ?_, fun _ _ _ _ => ?_, fun event mem => ?_⟩
  · rw [same, subtracted]
    omega
  · rw [same]
    exact inv.in_order
  · rw [same]
    exact inv.count_le
  · rw [same]
    exact all
  · rw [same]
    exact all
  · rcases mem_append.mp mem with old | new
    · exact inv.not_wrapped event old
    · obtain rfl := mem_singleton.mp new
      change 0 < s.current.toNat
      omega

end Step

theorem protocol_sound (few : items.length + Fintype.card τ < 2 ^ 64) :
    (protocol items).Sound (exec : Semantics interface τ (State τ)) (Inv items) where
  step {tokens s s' task o i} inv pre done := by
    cases o with
    | fetchAdd =>
      cases done
      have others := pending_lt pre
      have counter := inv.counter
      have most := inv.count_le
      have room : s.current.toNat + 1 < 2 ^ 64 := by omega
      have number : s.current ≠ BitVec.allOnes 64 := by
        rintro top
        rw [top] at room
        simp at room
      by_cases left : s.current.toNat < items.length
      · refine ⟨.idle, ⟨number, (if_pos left).symm⟩, ?_⟩
        rw [← pre, update_eq_self]
        exact inv.claimed left room
      · exact ⟨.failing, ⟨number, (if_neg left).symm⟩, inv.refused pre (not_lt.mp left) room⟩
    | fetchSub =>
      cases done
      exact ⟨.idle, rfl, inv.put_back pre⟩

/-! ## All interleavings -/

omit [DecidableEq τ] in
theorem Inv.handsOut {s : State τ} {tokens : τ → Token} (inv : Inv items s tokens) :
    HandsOut items s where
  in_order := ⟨_, inv.count_le, inv.in_order⟩
  complete worker i mem refused := by rw [inv.in_order, inv.complete worker i mem refused]
  not_wrapped := inv.not_wrapped

omit [DecidableEq τ] in
theorem inv_start : Inv items (start items : Config interface Abort τ _).shared fun _ => .idle where
  counter := by
    have none : pending (fun _ : τ => Token.idle) = 0 := pending_eq_zero (by simp)
    rw [none]
    rfl
  in_order := rfl
  count_le := Nat.zero_le _
  exhausted _ := nofun
  complete _ _ := nofun
  not_wrapped _ := nofun

/-- A worker on its own begins an iteration of its loop and claims an item. -/
theorem reachable_fetchAdd {s : State Unit}
    (reachable : Config.Reachable exec (start items) ⟨s, fun _ : Unit => worker items⟩) :
    ∃ code : Unit → Prog interface Abort Unit, Config.Reachable exec (start items)
        ⟨⟨s.current + 1, s.history ++ [((), .fetchAdd, s.current)]⟩, code⟩ ∧
      (s.current.toNat < items.length → code = fun _ => worker items) := by
  refine ⟨_, (reachable.next () rfl).next () rfl, fun left => funext fun _ => ?_⟩
  exact congrArg (fun p : Prog interface Abort (Option (T × ℕ)) =>
    (p.bind fun _ => .ret (.inl ())).bind (Prog.unroll (iteration items) .ret))
    (settle_of_lt items left)

theorem reachable_claims {count : ℕ} (few : count ≤ items.length) (range : items.length < 2 ^ 64) :
    ∃ history, Config.Reachable exec (start items)
      ⟨⟨BitVec.ofNat 64 count, history⟩, fun _ : Unit => worker items⟩ := by
  induction count with
  | zero => exact ⟨[], [], rfl⟩
  | succ count ih =>
    obtain ⟨history, reachable⟩ := ih (by omega)
    have value : (BitVec.ofNat 64 count).toNat = count := by
      exact Nat.mod_eq_of_lt (by omega)
    obtain ⟨code, claimed, same⟩ := reachable_fetchAdd items reachable
    obtain rfl := same (by rwa [value])
    rw [BitVec.ofNat_add]
    exact ⟨_, claimed⟩

end DiskAnn.DynamicBalancer
