import DiskAnn.Inmem.Epoch
import DiskAnn.Machine.Protocol

/-! # The protocol of the epoch registry

A token says how far a task is in registering a guard or in advancing the epoch. The invariant
relates the guard slots, the global epoch and the four queues at every intermediate step:

* a guard that confirmed epoch `e` keeps the global epoch at `e` or `e + 1`, although the value in
  its slot may still be older than `e`;
* once a scan has found no older epoch, every confirmed guard is at least at the scanned epoch,
  including guards that register behind the scan;
* an id waits in the queue of the epoch it was retired at, and no guard that was live at its push
  is more than one epoch ahead of that.
-/

namespace DiskAnn.Inmem.Epoch

open Machine List Function Registry

/-- A guard is live in `slot`, and whatever was pushed while it was, was pushed at `epoch` or
later. -/
def Registry.Shields {n : ℕ} (s : Registry n) (slot : Fin n) (epoch : ℕ) : Prop :=
  ∃ g, s.live slot = some g ∧
    ∀ q, ∀ entry ∈ s.retiring q, entry.waiting slot = some g → epoch ≤ entry.epoch

/-- How far a task is in its use of the registry. -/
inductive Token (n : ℕ)
  | idle
  /-- Has read the epoch and looks for a free slot. -/
  | looking (epoch : ℕ)
  /-- Has claimed a slot, which holds `stored`, and last read `epoch`. -/
  | claimed (slot : Fin n) (stored epoch : ℕ)
  /-- Holds a guard of `epoch`; the slot holds `stored`. -/
  | guarding (slot : Fin n) (stored epoch : ℕ)
  | locked
  /-- Has the drain lock and the slots `left` still to scan. -/
  | scanning (current : ℕ) (left : List (Fin n)) (least : ℕ)
  /-- Has advanced the epoch from `current` and holds the drain. -/
  | draining (current : ℕ)

namespace Token

variable {n : ℕ}

/-- The slot a task has claimed. -/
def slot? : Token n → Option (Fin n)
  | claimed slot _ _ | guarding slot _ _ => some slot
  | _ => none

/-- Whether a task holds the drain lock. -/
def drains : Token n → Bool
  | locked | scanning _ _ _ | draining _ => true
  | _ => false

/-- Whether a task may start to register or to advance. -/
def free : Token n → Bool
  | idle | looking _ => true
  | _ => false

/-- The token of a task with a live guard in `slot`. -/
def Guards (slot : Fin n) (token : Token n) : Prop :=
  ∃ stored epoch, token = guarding slot stored epoch

/-- The token of a task whose drain refers to the queue `q`. -/
def Drains (q : Fin 4) (token : Token n) : Prop :=
  ∃ current, token = draining current ∧ q = lastQueue current

/-- What a token says about the registry on its own. -/
def Fits (s : Registry n) : Token n → Prop
  | idle => True
  | looking epoch => 1 ≤ epoch ∧ epoch ≤ s.epoch
  | claimed slot stored epoch =>
      s.guards slot = stored ∧ 1 ≤ stored ∧ stored ≤ epoch ∧ epoch ≤ s.epoch
  | guarding slot stored epoch =>
      s.guards slot = stored ∧ 1 ≤ stored ∧ stored ≤ epoch ∧ epoch ≤ s.epoch ∧
        s.epoch ≤ epoch + 1 ∧ s.Shields slot epoch
  | locked => s.drain = true
  | scanning current _ least => s.drain = true ∧ current = s.epoch ∧ least ≤ current
  | draining current => s.drain = true ∧ s.epoch = current + 1

/-- A token only speaks about its own slot, the epoch, the lock if it holds it, and its guard. -/
theorem Fits.frame {s s' : Registry n} {token : Token n} (fits : token.Fits s)
    (epoch : s'.epoch = s.epoch)
    (guards : ∀ slot, token.slot? = some slot → s'.guards slot = s.guards slot)
    (drain : token.drains = true → s'.drain = s.drain)
    (shields : ∀ slot epoch, token.Guards slot → epoch ≤ s.epoch → s.Shields slot epoch →
      s'.Shields slot epoch) :
    token.Fits s' := by
  cases token with
  | idle => trivial
  | looking e => simpa only [Fits, epoch] using fits
  | claimed slot stored e => simpa only [Fits, epoch, guards slot rfl] using fits
  | guarding slot stored e =>
    obtain ⟨held, pos, old, behind, near, shielded⟩ := fits
    refine ⟨(guards slot rfl).trans held, pos, old, ?_, ?_, ?_⟩
    · rwa [epoch]
    · rwa [epoch]
    · exact shields slot e ⟨stored, e, rfl⟩ behind shielded
  | locked => simpa only [Fits, drain rfl] using fits
  | scanning current left least => simpa only [Fits, epoch, drain rfl] using fits
  | draining current => simpa only [Fits, epoch, drain rfl] using fits

/-- What holds between the tokens of two tasks. -/
def Apart (a b : Token n) : Prop :=
  (∀ slot, a.slot? = some slot → b.slot? ≠ some slot) ∧
  (a.drains = true → b.drains = false) ∧
  -- a scan that found nothing older is right about the slots it has passed, whatever was
  -- registered behind it
  (∀ current left slot stored epoch, a = scanning current left current →
    b = guarding slot stored epoch → slot ∉ left → current ≤ epoch) ∧
  (∀ current slot stored epoch, a = draining current → b = guarding slot stored epoch →
    current ≤ epoch)

end Token

/-- Which accesses a token allows and where they take the task. -/
def protocol (n : ℕ) : Protocol (interface n) Panic (Token n) where
  pre token
    | .guardCheck | .tryLock => token.free = true
    | .fetchAddHint | .loadGuard _ => True
    | .casGuard _ epoch => token = .looking epoch
    | .guardRecheck slot epoch => ∃ stored, token = .claimed slot stored epoch
    | .storeGuard slot epoch => ∃ stored, token = .guarding slot stored epoch
    | .push q _ => ∃ slot stored epoch, token = .guarding slot stored epoch ∧ q = queue epoch
    | .dropGuard slot => ∃ stored epoch, token = .guarding slot stored epoch
    | .waitingCheck => token = .locked
    | .scanGuard slot => ∃ current left least, token = .scanning current (slot :: left) least
    | .fetchAddEpoch => ∃ current, token = .scanning current [] current ∧ current + 1 < wordSize
    | .pop q | .len q => ∃ current, token = .draining current ∧ q = lastQueue current
    | .unlock => token.drains = true
  post token o := match o with
    | .guardCheck => fun epoch token' => token' = .looking epoch
    | .fetchAddHint | .loadGuard _ | .push _ _ | .pop _ | .len _ => fun _ token' => token' = token
    | .casGuard slot epoch => fun (claimed : Bool) token' =>
        token' = if claimed then .claimed slot epoch epoch else token
    | .guardRecheck slot epoch => fun (current : ℕ) token' =>
        ∃ stored, token = .claimed slot stored epoch ∧
          token' = if current = epoch then .guarding slot stored epoch
            else .claimed slot stored current
    | .storeGuard slot epoch => fun _ token' => token' = .guarding slot epoch epoch
    | .dropGuard _ | .unlock => fun _ token' => token' = .idle
    | .tryLock => fun (locked : Bool) token' => token' = if locked then .locked else token
    | .waitingCheck => fun (current : ℕ) token' =>
        current < wordSize ∧ token' = .scanning current (finRange n) current
    | .scanGuard slot => fun (guarded : ℕ) token' =>
        ∃ current left least, token = .scanning current (slot :: left) least ∧
          token' = .scanning current left (if guarded ≠ 0 then min least guarded else least)
    | .fetchAddEpoch => fun (previous : ℕ) token' =>
        token = .scanning previous [] previous ∧ token' = .draining previous
  mayPanic _ reason := reason = .epochExhausted

/-- All accesses but those that use a guard or pop from a drain. -/
def Op.isSetup {n : ℕ} : Op n → Bool
  | push _ _ | dropGuard _ | pop _ => false
  | _ => true

/-- What holds between the accesses of any number of tasks. -/
structure Inv {n : ℕ} {τ : Type} (s : Registry n) (tokens : τ → Token n) : Prop where
  epoch_pos : 1 ≤ s.epoch
  epoch_lt : s.epoch < wordSize
  consistent : Protocol.Consistent (Token.Fits s) Token.Apart tokens
  live_guarded : ∀ slot g, s.live slot = some g → g < s.handedOut ∧
    ∃ task, (tokens task).Guards slot
  drain_alive : ∀ q, s.draining = some q → ∃ task, (tokens task).Drains q
  /-- An id was pushed at the current epoch or at the one before, to the queue of a guard of one
  of the two. -/
  queued : ∀ q, ∀ entry ∈ s.retiring q, entry.epoch ≤ s.epoch ∧
    (q = queue entry.epoch ∨ q = queue (entry.epoch - 1)) ∧
    ∀ slot g, entry.waiting slot = some g → g < s.handedOut
  /-- Every retirement is in one place: in one queue, or popped. -/
  numbered : ∀ k, (s.popped.map (·.number)).count k +
    ∑ q, ((s.retiring q).map (·.number)).count k = if k < s.pushes then 1 else 0

/-! ## Every access keeps the invariant -/

section Steps

open Protocol

variable {n : ℕ} {τ : Type} {s : Registry n} {tokens : τ → Token n} {task : τ} (inv : Inv s tokens)
include inv

private theorem Inv.fetchAddHint (hint : ℕ) : Inv { s with hint } tokens :=
  { inv with
    consistent := inv.consistent.mono fun _ fits =>
      fits.frame rfl (fun _ _ => rfl) (fun _ => rfl) fun _ _ _ _ shielded => shielded }

variable [DecidableEq τ] {epoch stored : ℕ}

/-- An access that leaves the epoch, the queues and the history alone. -/
private theorem Inv.move {guards : Fin n → ℕ} {drain : Bool} {token token' : Token n}
    (now : tokens task = token) (guards_kept : ∀ slot, token.Guards slot → token'.Guards slot)
    (drains_kept : ∀ q, token.Drains q → token'.Drains q)
    (own : token'.Fits { s with guards, drain })
    (others : ∀ other, other.Fits s → token.Apart other → other.Apart token →
      other.Fits { s with guards, drain } ∧ token'.Apart other ∧ other.Apart token') :
    Inv { s with guards, drain } (update tokens task token') := by
  subst now
  exact { inv with
    consistent := inv.consistent.update rfl own others
    live_guarded := fun slot g live => ⟨(inv.live_guarded slot g live).1,
      exists_update _ (inv.live_guarded slot g live).2 (guards_kept slot)⟩
    drain_alive := fun q draining => exists_update _ (inv.drain_alive q draining) (drains_kept q) }

open Token

private theorem Inv.guardCheck (free : (tokens task).free = true) :
    Inv s (update tokens task (.looking s.epoch)) := by
  refine inv.move rfl ?_ ?_ ⟨inv.epoch_pos, le_rfl⟩ fun other fits _ _ => ⟨fits, ?_⟩
  · rintro slot ⟨stored, epoch, guarding⟩
    simp [guarding, Token.free] at free
  · rintro q ⟨current, draining, -⟩
    simp [draining, Token.free] at free
  · simp [Apart, slot?, drains]

private theorem Inv.casGuard {slot : Fin n}
    (looking : tokens task = .looking epoch) (empty : s.guards slot = 0) :
    Inv { s with guards := update s.guards slot epoch }
      (update tokens task (.claimed slot epoch epoch)) := by
  obtain ⟨pos, behind⟩ := inv.consistent.each_of_eq looking
  refine inv.move looking (by simp [Guards]) (by simp [Drains]) ?_ ?_
  · simp [Fits, pos, behind]
  intro other fits _ _
  -- a claimed slot holds a positive epoch, so no other task has claimed this one
  have elsewhere : ∀ held, other.slot? = some held → held ≠ slot := by
    cases other <;> simp only [slot?, reduceCtorEq, false_implies, implies_true,
      Option.some.injEq]
    all_goals
      rintro _ rfl rfl
      obtain ⟨stored, pos, -⟩ := fits
      omega
  refine ⟨fits.frame rfl ?_ (fun _ => rfl) fun _ _ _ _ shielded => shielded, ?_⟩
  · intro held claimed
    exact update_of_ne (elsewhere held claimed) ..
  · cases other <;> simp_all [Apart, slot?, drains, eq_comm]

private theorem Inv.recheckMoved {slot : Fin n}
    (claimed : tokens task = .claimed slot stored epoch) :
    Inv s (update tokens task (.claimed slot stored s.epoch)) := by
  obtain ⟨held, pos, old, behind⟩ := inv.consistent.each_of_eq claimed
  refine inv.move claimed (by simp [Guards]) (by simp [Drains])
    ⟨held, pos, old.trans behind, le_rfl⟩ fun other fits apart apart' => ⟨fits, ?_⟩
  simpa [Apart, slot?, drains] using And.intro apart apart'

private theorem Inv.storeGuard {slot : Fin n}
    (guarding : tokens task = .guarding slot stored epoch) :
    Inv { s with guards := update s.guards slot epoch }
      (update tokens task (.guarding slot epoch epoch)) := by
  obtain ⟨held, pos, old, behind, near, shielded⟩ := inv.consistent.each_of_eq guarding
  refine inv.move guarding ?_ (by simp [Drains]) ?_ fun other fits apart apart' => ⟨?_, ?_⟩
  · rintro other ⟨stored', epoch', same⟩
    obtain ⟨rfl, -, -⟩ : slot = other ∧ stored = stored' ∧ epoch = epoch' := by
      simpa using same
    exact ⟨epoch, epoch, rfl⟩
  · exact ⟨by simp, pos.trans old, le_rfl, behind, near, shielded⟩
  · refine fits.frame rfl (fun held claimed => ?_) (fun _ => rfl) fun _ _ _ _ shielded => shielded
    have ne : held ≠ slot := fun same => apart.1 slot rfl (same ▸ claimed)
    exact update_of_ne ne ..
  · constructor
    · simpa [Apart, slot?, drains] using apart
    · refine ⟨apart'.1, apart'.2.1, ?_, ?_⟩
      · rintro current left slot' stored' epoch' rfl same passed
        obtain ⟨rfl, -, rfl⟩ : slot = slot' ∧ epoch = stored' ∧ epoch = epoch' := by
          simpa using same
        exact apart'.2.2.1 current left slot stored epoch rfl rfl passed
      · rintro current slot' stored' epoch' rfl same
        obtain ⟨rfl, -, rfl⟩ : slot = slot' ∧ epoch = stored' ∧ epoch = epoch' := by
          simpa using same
        exact apart'.2.2.2 current slot stored epoch rfl rfl

private theorem Inv.tryLock (free : (tokens task).free = true)
    (unlocked : s.drain = false) :
    Inv { s with drain := true } (update tokens task .locked) := by
  refine inv.move rfl ?_ ?_ rfl fun other fits _ _ => ?_
  · rintro slot ⟨stored, epoch, guarding⟩
    simp [guarding, Token.free] at free
  · rintro q ⟨current, draining, -⟩
    simp [draining, Token.free] at free
  have outside : other.drains = false := by
    cases other <;> simp_all [Fits, drains]
  refine ⟨fits.frame rfl (fun _ _ => rfl) (by simp [outside]) fun _ _ _ _ shielded => shielded, ?_⟩
  exact ⟨⟨by simp [slot?], fun _ => outside, by simp, by simp⟩,
    ⟨by simp [slot?], by simp [outside], by simp, by simp⟩⟩

private theorem Inv.waitingCheck (locked : tokens task = .locked) :
    Inv s (update tokens task (.scanning s.epoch (finRange n) s.epoch)) := by
  refine inv.move locked (by simp [Guards]) (by simp [Drains])
    ⟨inv.consistent.each_of_eq locked, rfl, le_rfl⟩ fun other fits apart apart' => ⟨fits, ?_⟩
  refine ⟨⟨by simp [slot?], apart.2.1, ?_, by simp⟩, ?_⟩
  · rintro current left slot stored epoch same - passed
    obtain ⟨-, rfl, -⟩ : s.epoch = current ∧ finRange n = left ∧ s.epoch = current := by
      simpa using same
    exact absurd (mem_finRange slot) passed
  · simpa [Apart, slot?, drains] using apart'

private theorem Inv.scanGuard {slot : Fin n} {current least : ℕ} {left : List (Fin n)}
    (scanning : tokens task = .scanning current (slot :: left) least) :
    Inv s (update tokens task
      (.scanning current left (if s.guards slot ≠ 0 then min least (s.guards slot) else least))) := by
  obtain ⟨locked, now, bounded⟩ := inv.consistent.each_of_eq scanning
  refine inv.move scanning (by simp [Guards]) (by simp [Drains])
    ⟨locked, now, by split <;> omega⟩ fun other fits apart apart' => ⟨fits, ?_⟩
  refine ⟨⟨by simp [slot?], apart.2.1, ?_, by simp⟩, ?_⟩
  · rintro current' left' slot' stored epoch same rfl passed
    simp only [Token.scanning.injEq] at same
    obtain ⟨rfl, rfl, smallest⟩ := same
    obtain ⟨held, pos, old, -⟩ := fits
    have nothing_older : least = current := by split at smallest <;> omega
    by_cases here : slot' = slot
    · -- the guard is in the slot just scanned, which holds at most its epoch
      subst here
      have occupied : s.guards slot' ≠ 0 := by omega
      rw [if_pos occupied] at smallest
      omega
    · exact apart.2.2.1 current (slot :: left) slot' stored epoch (by rw [nothing_older]) rfl
        (by simp [here, passed])
  · simpa [Apart, slot?, drains] using apart'

private theorem Inv.recheckConfirmed {slot : Fin n}
    (claimed : tokens task = .claimed slot stored s.epoch) :
    Inv { s with
        live := update s.live slot (some s.handedOut), handedOut := s.handedOut + 1 }
      (update tokens task (.guarding slot stored s.epoch)) := by
  obtain ⟨held, pos, old, behind⟩ := inv.consistent.each_of_eq claimed
  refine { inv with
    consistent := inv.consistent.update claimed ?own fun other fits apart apart' => ⟨?fits, ?apart⟩
    live_guarded := ?live_guarded
    drain_alive := ?drain_alive
    queued := ?queued }
  case own =>
    refine ⟨held, pos, old, le_rfl, Nat.le_succ _, s.handedOut, by simp, ?_⟩
    -- the guard is new, so nothing in the queues was pushed while it was live
    intro q entry mem waiting
    exact absurd ((inv.queued q entry mem).2.2 slot _ waiting) (lt_irrefl _)
  case fits =>
    refine fits.frame rfl (fun _ _ => rfl) (fun _ => rfl) fun other epoch guards _ shielded => ?_
    obtain ⟨stored', epoch', rfl⟩ := guards
    have ne : other ≠ slot := by
      rintro rfl
      exact apart.1 other rfl rfl
    obtain ⟨g, now, later⟩ := shielded
    exact ⟨g, by simpa [ne] using now, later⟩
  case apart =>
    refine ⟨⟨apart.1, by simp [drains], by simp, by simp⟩, apart'.1, apart'.2.1, ?_, ?_⟩
    · rintro current left slot' stored' epoch rfl same -
      obtain ⟨-, now, -⟩ := fits
      simp only [guarding.injEq] at same
      omega
    · rintro current slot' stored' epoch rfl same
      obtain ⟨-, now⟩ := fits
      simp only [guarding.injEq] at same
      omega
  case live_guarded =>
    intro slot' g live
    by_cases here : slot' = slot
    · subst here
      obtain rfl : s.handedOut = g := by simpa using live
      exact ⟨Nat.lt_succ_self _, task, stored, s.epoch, by simp⟩
    · obtain ⟨issued, guarded⟩ := inv.live_guarded slot' g (by simpa [here] using live)
      exact ⟨Nat.lt_succ_of_lt issued,
        exists_update _ guarded (by simp [claimed, Guards])⟩
  case drain_alive =>
    exact fun q draining => exists_update _ (inv.drain_alive q draining)
      (by simp [claimed, Drains])
  case queued =>
    intro q entry mem
    obtain ⟨behind, placed, issued⟩ := inv.queued q entry mem
    exact ⟨behind, placed, fun slot g waiting => Nat.lt_succ_of_lt (issued slot g waiting)⟩

private theorem Inv.dropGuard {slot : Fin n}
    (guarding : tokens task = .guarding slot stored epoch) :
    Inv (s.dropGuard slot) (update tokens task .idle) := by
  refine { inv with
    consistent := inv.consistent.update guarding trivial fun other fits apart apart' =>
      ⟨?fits, ?apart⟩
    live_guarded := ?live_guarded
    drain_alive := ?drain_alive }
  case fits =>
    have ne : ∀ held, other.slot? = some held → held ≠ slot :=
      fun held claimed same => apart.1 slot rfl (same ▸ claimed)
    refine fits.frame rfl (fun held claimed => ?_) (fun _ => rfl) fun held epoch guards _ shielded => ?_
    · exact update_of_ne (ne held claimed) ..
    · obtain ⟨stored', epoch', rfl⟩ := guards
      obtain ⟨g, now, later⟩ := shielded
      exact ⟨g, by simpa [Registry.dropGuard, ne held rfl] using now, later⟩
  case apart => simp [Apart, slot?, drains]
  case live_guarded =>
    intro slot' g live
    have ne : slot' ≠ slot := by
      rintro rfl
      simp [Registry.dropGuard] at live
    obtain ⟨issued, guarded⟩ :=
      inv.live_guarded slot' g (by simpa [Registry.dropGuard, ne] using live)
    exact ⟨issued, exists_update _ guarded (by simp [guarding, Guards, ne.symm])⟩
  case drain_alive =>
    exact fun q draining => exists_update _ (inv.drain_alive q draining)
      (by simp [guarding, Drains])

private theorem Inv.unlock (drains : (tokens task).drains = true) :
    Inv { s with drain := false, draining := none } (update tokens task .idle) := by
  refine { inv with
    consistent := inv.consistent.update rfl trivial fun other fits apart apart' => ⟨?fits, ?apart⟩
    live_guarded := ?live_guarded
    drain_alive := by simp }
  case fits =>
    exact fits.frame rfl (fun _ _ => rfl) (by simp [apart.2.1 drains])
      fun _ _ _ _ shielded => shielded
  case apart => simp [Token.Apart, Token.slot?, Token.drains]
  case live_guarded =>
    intro slot g live
    obtain ⟨issued, guarded⟩ := inv.live_guarded slot g live
    refine ⟨issued, exists_update _ guarded ?_⟩
    rintro ⟨stored, epoch, guarding⟩
    simp [guarding, Token.drains] at drains

private theorem Inv.fetchAddEpoch
    (scanning : tokens task = .scanning s.epoch [] s.epoch) (room : s.epoch + 1 < wordSize) :
    Inv s.fetchAddEpoch (update tokens task (.draining s.epoch)) := by
  have own := inv.consistent.each_of_eq scanning
  have next : s.fetchAddEpoch.epoch = s.epoch + 1 := Nat.mod_eq_of_lt room
  refine { inv with
    epoch_pos := by omega
    epoch_lt := by omega
    consistent := inv.consistent.update scanning ⟨own.1, next⟩ fun other fits apart apart' => ?others
    live_guarded := ?live_guarded
    drain_alive := ?drain_alive
    queued := ?queued }
  case others =>
    have outside : other.drains = false := apart.2.1 rfl
    -- every guard is at the scanned epoch, so the epoch may pass it by one
    have caught_up : ∀ slot stored epoch, other = .guarding slot stored epoch → s.epoch ≤ epoch :=
      fun slot stored epoch guarding =>
        apart.2.2.1 s.epoch [] slot stored epoch rfl guarding (by simp)
    refine ⟨?_, ⟨by simp [slot?], fun _ => outside, by simp, ?_⟩,
      ⟨by simp [slot?], by simp [outside], by simp, by simp⟩⟩
    · cases other with
      | idle => trivial
      | looking epoch => exact ⟨fits.1, by have := fits.2; omega⟩
      | claimed slot stored epoch =>
        obtain ⟨held, pos, old, behind⟩ := fits
        exact ⟨held, pos, old, by omega⟩
      | guarding slot stored epoch =>
        obtain ⟨held, pos, old, behind, near, shielded⟩ := fits
        have := caught_up slot stored epoch rfl
        exact ⟨held, pos, old, by omega, by omega, shielded⟩
      | locked => simp [drains] at outside
      | scanning current left least => simp [drains] at outside
      | draining current => simp [drains] at outside
    · intro current slot stored epoch same guarding
      have := caught_up slot stored epoch guarding
      simp only [draining.injEq] at same
      omega
  case live_guarded =>
    intro slot g live
    obtain ⟨issued, guarded⟩ := inv.live_guarded slot g live
    exact ⟨issued, exists_update _ guarded (by simp [scanning, Guards])⟩
  case drain_alive =>
    intro q draining
    obtain rfl : lastQueue s.epoch = q := by simpa [Registry.fetchAddEpoch] using draining
    exact ⟨task, s.epoch, by simp, rfl⟩
  case queued =>
    intro q entry mem
    obtain ⟨behind, placed, issued⟩ := inv.queued q entry mem
    exact ⟨by omega, placed, issued⟩

omit inv in
omit [DecidableEq τ] in
/-- One queue changes: what is counted in it is counted in all of them. -/
theorem sum_count_update (retiring : Fin 4 → List (Retired n)) (key : Retired n → ℕ) (q : Fin 4)
    (entries : List (Retired n)) (k : ℕ) :
    ∑ q', ((update retiring q entries q').map key).count k +
        ((retiring q).map key).count k =
      ∑ q', ((retiring q').map key).count k + (entries.map key).count k := by
  have split : ∀ f : Fin 4 → ℕ, ∑ q', f q' = f q + ∑ q' ∈ Finset.univ.erase q, f q' :=
    fun f => (Finset.add_sum_erase _ _ (Finset.mem_univ q)).symm
  rw [split, split fun q' => ((retiring q').map key).count k, update_self]
  have rest : ∀ q' ∈ Finset.univ.erase q,
      ((update retiring q entries q').map key).count k =
        ((retiring q').map key).count k := by
    intro q' mem
    rw [update_of_ne (Finset.ne_of_mem_erase mem)]
  rw [Finset.sum_congr rfl rest]
  omega

omit [DecidableEq τ] in
private theorem Inv.push {slot : Fin n}
    (guarding : tokens task = .guarding slot stored epoch) (id : UInt32) :
    Inv (s.push (queue epoch) id) tokens := by
  obtain ⟨held, pos, old, behind, near, shielded⟩ := inv.consistent.each_of_eq guarding
  have member_cases : ∀ q, ∀ entry ∈ (s.push (queue epoch) id).retiring q,
      entry ∈ s.retiring q ∨ (q = queue epoch ∧ entry = ⟨id, s.pushes, s.epoch, s.live⟩) := by
    intro q entry mem
    by_cases here : q = queue epoch
    · subst here
      simpa [Registry.push] using mem
    · exact .inl (by simpa [Registry.push, here] using mem)
  refine { inv with
    consistent := inv.consistent.mono fun other fits =>
      fits.frame rfl (fun _ _ => rfl) (fun _ => rfl) ?shields
    queued := ?queued
    numbered := ?numbered }
  case shields =>
    rintro slot' e guards behind ⟨g, now, later⟩
    refine ⟨g, now, fun q entry mem waiting => ?_⟩
    obtain mem | ⟨-, rfl⟩ := member_cases q entry mem
    · exact later q entry mem waiting
    · exact behind
  case queued =>
    intro q entry mem
    obtain mem | ⟨rfl, rfl⟩ := member_cases q entry mem
    · exact inv.queued q entry mem
    · refine ⟨le_rfl, ?_, fun slot g live => (inv.live_guarded slot g live).1⟩
      have : epoch = s.epoch ∨ epoch = s.epoch - 1 := by omega
      exact this.imp (congrArg queue) (congrArg queue)
  case numbered =>
    intro k
    have before := inv.numbered k
    have moved := sum_count_update s.retiring (·.number) (queue epoch)
      (s.retiring (queue epoch) ++ [⟨id, s.pushes, s.epoch, s.live⟩]) k
    simp only [map_append, count_append, map_cons, map_nil,
      count_singleton, beq_iff_eq] at moved
    have one_more : (if k < s.pushes + 1 then 1 else 0) =
        (if k < s.pushes then 1 else 0) + if s.pushes = k then 1 else 0 := by
      split_ifs <;> omega
    change _ + _ = if k < s.pushes + 1 then 1 else 0
    simp only [Registry.push]
    omega

omit [DecidableEq τ] in
private theorem Inv.pop (q : Fin 4) : Inv (s.pop q).1 tokens := by
  unfold Registry.pop
  cases entries : s.retiring q with
  | nil => exact inv
  | cons entry rest =>
    have subset : ∀ q', ∀ x ∈ update s.retiring q rest q', x ∈ s.retiring q' := by
      intro q' x mem
      by_cases here : q' = q
      · subst here
        rw [entries]
        exact mem_cons_of_mem _ (by simpa using mem)
      · simpa [here] using mem
    refine { inv with
      consistent := inv.consistent.mono fun other fits =>
        fits.frame rfl (fun _ _ => rfl) (fun _ => rfl) fun slot e _ _ ⟨g, now, later⟩ =>
          ⟨g, now, fun q' x mem => later q' x (subset q' x mem)⟩
      queued := fun q' x mem => inv.queued q' x (subset q' x mem)
      numbered := fun k => ?_ }
    have before := inv.numbered k
    have moved := sum_count_update s.retiring (·.number) q rest k
    simp only [entries, map_cons, count_cons] at moved
    simp only [map_append, count_append, map_cons, map_nil, count_cons,
      count_nil]
    omega

omit inv in
/-- The protocol keeps the invariant at every atomic access. -/
theorem protocol_sound : (protocol n).Sound (exec (τ := τ)) Inv where
  step := by
    intro tokens s s' task o r inv pre out
    cases o with
    | guardCheck =>
      cases out
      exact ⟨_, rfl, inv.guardCheck pre⟩
    | fetchAddHint =>
      cases out
      exact ⟨_, rfl, by simpa using inv.fetchAddHint _⟩
    | loadGuard slot =>
      cases out
      exact ⟨_, rfl, by simpa using inv⟩
    | casGuard slot epoch =>
      simp only [exec] at out
      split_ifs at out with empty
      · cases out
        exact ⟨_, rfl, inv.casGuard pre empty⟩
      · cases out
        exact ⟨_, rfl, by simpa using inv⟩
    | guardRecheck slot epoch =>
      obtain ⟨stored, claimed⟩ := pre
      cases out
      refine ⟨_, ⟨stored, claimed, rfl⟩, ?_⟩
      by_cases confirmed : s.epoch = epoch
      · subst confirmed
        simpa [recheck] using inv.recheckConfirmed claimed
      · simpa [recheck, confirmed] using inv.recheckMoved claimed
    | storeGuard slot epoch =>
      obtain ⟨stored, guarding⟩ := pre
      cases out
      exact ⟨_, rfl, inv.storeGuard guarding⟩
    | push q id =>
      obtain ⟨slot, stored, epoch, guarding, rfl⟩ := pre
      cases out
      exact ⟨_, rfl, by simpa using inv.push guarding id⟩
    | dropGuard slot =>
      obtain ⟨stored, epoch, guarding⟩ := pre
      cases out
      exact ⟨_, rfl, inv.dropGuard guarding⟩
    | tryLock =>
      simp only [exec] at out
      split_ifs at out with held
      · cases out
        exact ⟨_, rfl, by simpa using inv⟩
      · cases out
        exact ⟨_, rfl, inv.tryLock pre (by simpa using held)⟩
    | waitingCheck =>
      cases out
      exact ⟨_, ⟨inv.epoch_lt, rfl⟩, inv.waitingCheck pre⟩
    | scanGuard slot =>
      obtain ⟨current, left, least, scanning⟩ := pre
      cases out
      exact ⟨_, ⟨current, left, least, scanning, rfl⟩, inv.scanGuard scanning⟩
    | fetchAddEpoch =>
      obtain ⟨current, scanning, room⟩ := pre
      obtain ⟨-, rfl, -⟩ := inv.consistent.each_of_eq scanning
      cases out
      exact ⟨_, ⟨scanning, rfl⟩, inv.fetchAddEpoch scanning room⟩
    | pop q =>
      obtain rfl : (s.pop q).1 = s' := congrArg Prod.fst (Option.some.inj out)
      exact ⟨_, rfl, by simpa using inv.pop q⟩
    | len q =>
      cases out
      exact ⟨_, rfl, by simpa using inv⟩
    | unlock =>
      cases out
      exact ⟨_, rfl, inv.unlock pre⟩

omit [DecidableEq τ] in
/-- Setting up a guard or a drain leaves the queues and the live guards alone. -/
theorem Inv.setup_keeps {o : Op n} {s' : Registry n} {r : o.Res}
    (pre : (protocol n).pre (tokens task) o) (setup : o.isSetup = true)
    (out : exec task o s = some (s', r)) :
    s'.retiring = s.retiring ∧ ∀ slot g, s.live slot = some g → s'.live slot = some g := by
  cases o with
  | push q id => cases setup
  | dropGuard slot => cases setup
  | pop q => cases setup
  | casGuard slot epoch =>
    simp only [exec] at out
    split_ifs at out <;> cases out <;> exact ⟨rfl, fun _ _ live => live⟩
  | tryLock =>
    simp only [exec] at out
    split_ifs at out <;> cases out <;> exact ⟨rfl, fun _ _ live => live⟩
  | guardRecheck slot epoch =>
    obtain ⟨stored, claimed⟩ := pre
    cases out
    unfold recheck
    split_ifs
    · refine ⟨rfl, fun other g live => ?_⟩
      -- the slot is claimed, so no other task has a guard in it
      obtain ⟨-, holder, stored', epoch', guarding⟩ := inv.live_guarded other g live
      have ne : other ≠ slot := by
        rintro rfl
        have elsewhere : task ≠ holder := by
          rintro rfl
          simp [claimed] at guarding
        exact (inv.consistent.pair task holder elsewhere).1 other (by rw [claimed]; rfl)
          (by rw [guarding]; rfl)
      simpa [ne] using live
    · exact ⟨rfl, fun _ _ live => live⟩
  | _ =>
    cases out
    exact ⟨rfl, fun _ _ live => live⟩

end Steps

/-! ## What the invariant says about a drain -/

section Drain

variable {n : ℕ} {τ : Type} {s : Registry n} {tokens : τ → Token n}

theorem inv_withCapacity : Inv (withCapacity n) fun _ : τ => .idle where
  epoch_pos := le_rfl
  epoch_lt := by simp [withCapacity, wordSize]
  consistent := ⟨fun _ => trivial, fun _ _ _ => by simp [Token.Apart, Token.slot?, Token.drains]⟩
  live_guarded := by simp [withCapacity]
  drain_alive := by simp [withCapacity]
  queued := by simp [withCapacity]
  numbered := by simp [withCapacity]

theorem lastQueue_eq (epoch : ℕ) : lastQueue epoch = queue (epoch + 2) := by
  apply Fin.ext
  simp only [lastQueue, queue, wordSize, Fin.ofNat]
  omega

/-- No queue within one epoch of `epoch` is the one drained when `epoch` is left. -/
theorem queue_ne_lastQueue {epoch near : ℕ} (below : epoch ≤ near + 1) (above : near ≤ epoch + 1) :
    queue near ≠ lastQueue epoch := by
  rw [lastQueue_eq]
  intro same
  have := congrArg Fin.val same
  simp only [queue, Fin.ofNat] at this
  omega

variable (inv : Inv s tokens)
include inv

/-- The epoch that a drain has left behind is not ahead of any guard. -/
theorem Inv.caught_up {task other : τ} {current : ℕ} {slot : Fin n}
    {stored epoch : ℕ} (draining : tokens task = .draining current)
    (guarding : tokens other = .guarding slot stored epoch) :
    s.epoch = current + 1 ∧ current ≤ epoch ∧ epoch ≤ s.epoch ∧ s.Shields slot epoch := by
  have ne : task ≠ other := by
    rintro rfl
    simp [draining] at guarding
  obtain ⟨-, -, -, behind, -, shielded⟩ := inv.consistent.each_of_eq guarding
  exact ⟨(inv.consistent.each_of_eq draining).2,
    (inv.consistent.pair task other ne).2.2.2 current slot stored epoch draining guarding,
    behind, shielded⟩

/-- What the head of the drained queue waited for is gone. -/
theorem Inv.popped_after_dropped {task : τ} {current : ℕ}
    (draining : tokens task = .draining current) {entry : Retired n}
    (queued : entry ∈ s.retiring (lastQueue current)) {slot : Fin n} {g : ℕ}
    (waiting : entry.waiting slot = some g) : s.live slot ≠ some g := by
  intro live
  obtain ⟨-, other, stored, epoch, guarding⟩ := inv.live_guarded slot g live
  obtain ⟨now, caught_up, behind, g', now', later⟩ := inv.caught_up draining guarding
  obtain rfl : g = g' := by simpa [live] using now'
  have shielded := later _ entry queued waiting
  obtain ⟨behind', placed, -⟩ := inv.queued _ entry queued
  rcases placed with placed | placed
  · exact queue_ne_lastQueue (by omega) (by omega) placed.symm
  · exact queue_ne_lastQueue (by omega) (by omega) placed.symm

/-- A live guard never retires to the queue being drained. -/
theorem Inv.retires_elsewhere {task : τ} {slot : Fin n} {stored epoch : ℕ}
    (guarding : tokens task = .guarding slot stored epoch) {q : Fin 4} (alive : s.draining = some q) :
    queue epoch ≠ q := by
  obtain ⟨other, current, draining, rfl⟩ := inv.drain_alive q alive
  obtain ⟨now, caught_up, behind, -⟩ := inv.caught_up draining guarding
  exact queue_ne_lastQueue (by omega) (by omega)

theorem Inv.popped_numbers :
    (s.popped.map (·.number)).Nodup ∧ ∀ entry ∈ s.popped, entry.number < s.pushes := by
  constructor
  · rw [nodup_iff_count_le_one]
    intro k
    have total := inv.numbered k
    split_ifs at total <;> omega
  · intro entry mem
    have total := inv.numbered entry.number
    have counted : 0 < (s.popped.map (·.number)).count entry.number :=
      count_pos_iff.mpr (mem_map_of_mem mem)
    by_contra unissued
    rw [if_neg unissued] at total
    omega

end Drain

/-! ## The code follows the protocol

`guard` and `try_advance` only make the accesses that set a guard or a drain up, so what is said
about them here also holds where using a guard or a drain takes more than a token of the registry.
-/

def setup (n : ℕ) (panics : Panic → Prop) : Protocol (interface n) Panic (Token n) :=
  (protocol n).restrict (fun _ o => o.isSetup = true) panics

section Code

open Protocol

variable {n : ℕ} {token : Token n} {panics : Panic → Prop}

/-- A returned guard stands for a confirmed epoch, whose queue it retires to. -/
def Guard.Of (g : Guard n) (token : Token n) : Prop :=
  ∃ stored epoch, token = .guarding g.slot stored epoch ∧ g.retire = queue epoch

/-- A returned drain reads the queue two epochs behind the epoch that was advanced. -/
def Drain.Of (d : Drain) (token : Token n) : Prop :=
  ∃ current, token = .draining current ∧ d.queue = lastQueue current

theorem settle_wp {slot : Fin n} {epoch : ℕ} {stored : ℕ}
    (claimed : token = .claimed slot stored epoch) :
    (setup n panics).wp token (settle slot epoch) fun token' r =>
      token' = .guarding slot stored r.1 := by
  refine wp_repeatUntil (fun token b => token = .claimed slot stored b.1) ?_ claimed
  rintro _ ⟨epoch, reset⟩ rfl
  refine wp_op ⟨⟨stored, rfl⟩, rfl⟩ ?_
  rintro (current : ℕ) token' ⟨stored', same, rfl⟩
  obtain rfl : stored = stored' := by simpa using same
  by_cases confirmed : current = epoch
  · simp [confirmed]
  · simp [confirmed]

theorem register_wp [NeZero n] {epoch hint : ℕ} (slots : List ℕ)
    (looking : token = .looking epoch) :
    (setup n panics).wp token (register epoch hint slots) fun token' r =>
      match r with
      | .error _ => token'.free = true
      | .ok g => g.Of token' := by
  induction slots with
  | nil => simp [register, looking, Token.free]
  | cons i rest ih =>
    refine wp_op ⟨trivial, rfl⟩ ?_
    rintro (guarded : ℕ) token' rfl
    split_ifs with empty
    · refine wp_op ⟨looking, rfl⟩ ?_
      rintro (claimed : Bool) token' rfl
      cases claimed with
      | false => simpa using ih
      | true =>
        refine wp_seq (settle_wp rfl) ?_
        rintro token' ⟨epoch', reset⟩ rfl
        cases reset with
        | false => exact wp_ret ⟨_, _, rfl, rfl⟩
        | true =>
          refine wp_op ⟨⟨_, rfl⟩, rfl⟩ ?_
          rintro _ token' rfl
          exact wp_ret ⟨_, _, rfl, rfl⟩
    · exact ih

/-- `guard` ends with a confirmed guard, or with nothing. -/
theorem guard_wp [NeZero n] (panics : Panic → Prop) (free : token.free = true) :
    (setup n panics).wp token guard fun token' r =>
      match r with
      | .error _ => token'.free = true
      | .ok g => g.Of token' := by
  refine wp_op ⟨free, rfl⟩ ?_
  rintro (epoch : ℕ) token' rfl
  refine wp_op ⟨trivial, rfl⟩ ?_
  rintro (hint : ℕ) token' rfl
  exact register_wp _ rfl

theorem scan_wp {current least : ℕ} (slots : List (Fin n))
    (scanning : token = .scanning current slots least) (bounded : least ≤ current) :
    (setup n panics).wp token (scan least slots) fun token' r =>
      token' = .scanning current [] r ∧ r ≤ current := by
  induction slots generalizing token least with
  | nil => simp [scan, scanning, bounded]
  | cons slot rest ih =>
    refine wp_op ⟨⟨current, rest, least, scanning⟩, rfl⟩ ?_
    rintro (guarded : ℕ) token' ⟨current', rest', least', same, rfl⟩
    obtain ⟨rfl, ⟨-, rfl⟩, rfl⟩ : current = current' ∧ (slot = slot ∧ rest = rest') ∧
        least = least' := by simpa [scanning] using same
    exact ih rfl (by split <;> omega)

theorem canAdvance_wp (locked : token = .locked) :
    (setup n panics).wp token canAdvance fun token' r =>
      ∃ current, token' = .scanning current [] r.2 ∧ r.2 ≤ current ∧ current < wordSize ∧
        r.1 = (r.2 == current) := by
  refine wp_op ⟨locked, rfl⟩ ?_
  rintro (current : ℕ) token' ⟨word, rfl⟩
  refine wp_seq (scan_wp _ rfl le_rfl) ?_
  rintro token' least ⟨rfl, bounded⟩
  exact wp_ret ⟨current, rfl, bounded, word, rfl⟩

/-- `try_advance` ends with a drain, or with nothing; the debug assertion holds. -/
theorem tryAdvance_wp (free : token.free = true) :
    (setup n fun _ => True).wp token tryAdvance fun token' r =>
      match r with
      | none => token'.free = true
      | some d => d.Of token' := by
  refine wp_op ⟨free, rfl⟩ ?_
  rintro (locked : Bool) token' rfl
  cases locked with
  | false => simpa using free
  | true =>
    refine wp_seq (canAdvance_wp rfl) ?_
    rintro token' ⟨can, least⟩ ⟨current, rfl, bounded, word, found⟩
    dsimp only at bounded found ⊢
    split_ifs with exhausted advance
    · refine wp_op ⟨rfl, rfl⟩ ?_
      rintro _ token' rfl
      exact wp_panic_iff.mpr ⟨rfl, trivial⟩
    · obtain rfl : least = current := by simpa [advance] using found
      refine wp_op ⟨⟨least, rfl, by omega⟩, rfl⟩ ?_
      rintro (previous : ℕ) token' ⟨same, rfl⟩
      obtain rfl : least = previous := by simpa using same
      simp [Drain.Of]
    · refine wp_op ⟨rfl, rfl⟩ ?_
      rintro _ token' rfl
      exact wp_ret rfl

end Code

end DiskAnn.Inmem.Epoch
