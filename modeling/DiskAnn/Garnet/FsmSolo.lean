import DiskAnn.Garnet.FsmSafety
import DiskAnn.Machine.Solo

/-! # What a call on the free space map does alone

`next_id` without other calls and without failed callbacks, from a map at rest: it takes the first
free id of the list, else the least free id that a scan finds, else it mints. A call that finds an
entry of the list in use goes on to the next one, so the proof is by induction on the list.
-/

namespace DiskAnn.Garnet.Fsm

open Machine Prog List Function State Option

variable {τ : Type} {s : State τ} {task : τ}

/-! ## Gathering free ids -/

/-- A list after a scan of `n` ids from `id` on, as far as its first entry tells: an empty list now
starts with the least of them that is free and below the counter. -/
def Gathered (used : ℕ → Bool) (nextId id n : ℕ) (list list' : List ℕ) : Prop :=
  list'.head? = list.head?.or ((range' id n).find? fun id => id < nextId ∧ used id = false)

namespace Gathered

variable {used : ℕ → Bool} {nextId id n m : ℕ} {list list' list'' : List ℕ}

theorem trans (first : Gathered used nextId id n list list')
    (second : Gathered used nextId (id + n) m list' list'') :
    Gathered used nextId id (n + m) list list'' := by
  rw [Gathered] at first second ⊢
  rw [second, first, ← range'_append_1, find?_append, Option.or_assoc]

/-- Where the rest of a scan is not looked at. -/
theorem stopped (done : list ≠ [] ∨ nextId ≤ id) : Gathered used nextId id n list list := by
  rw [Gathered]
  obtain found | beyond := done
  · obtain ⟨first, rest, rfl⟩ := exists_cons_of_ne_nil found
    rfl
  · have none : (range' id n).find? (fun id => id < nextId ∧ used id = false) = none := by
      refine find?_eq_none.mpr fun other mem => ?_
      have := (mem_range'_1.mp mem).1
      simp only [decide_eq_true_eq]
      omega
    rw [none, or_none]

theorem skip (all : ∀ k < n, used (id + k) = true) : Gathered used nextId id n list list := by
  have none : (range' id n).find? (fun id => id < nextId ∧ used id = false) = none := by
    refine find?_eq_none.mpr fun other mem => ?_
    obtain ⟨from_id, before⟩ := mem_range'_1.mp mem
    have set := all (other - id) (by omega)
    rw [Nat.add_sub_cancel' from_id] at set
    simp [set]
  rw [Gathered, none, or_none]

theorem push (below : id < nextId) (free : used id = false) :
    Gathered used nextId id 1 list (list ++ [id]) := by
  have found : (range' id 1).find? (fun id => id < nextId ∧ used id = false) = some id := by
    simp [below, free]
  rw [Gathered, found, head?_append]
  rfl

end Gathered

/-- The state with another list, after some callbacks that changed nothing. -/
def State.withList (s : State τ) (fastFreeList : List ℕ) (clock : ℕ) : State τ :=
  { s with fastFreeList, clock }

/-- A scan of `n` ids: the list it leaves, and whether something was found if the list was empty. -/
structure Scan.Of (used : ℕ → Bool) (nextId id n : ℕ) (list : List ℕ) (scan : Scan)
    (list' : List ℕ) : Prop where
  gathered : Gathered used nextId id n list list'
  found : scan.found = !list'.isEmpty
  moved : scan.stopped = false → scan.id = id + n
  stopped : scan.stopped = true → list' ≠ [] ∨ nextId ≤ id + n

namespace Scan.Of

variable {used : ℕ → Bool} {nextId id n m : ℕ} {list list' list'' : List ℕ} {scan : Scan}

/-- No more ids to look at. -/
theorem none (used : ℕ → Bool) (nextId id : ℕ) (list : List ℕ) :
    Scan.Of used nextId id 0 list ⟨false, id, !list.isEmpty⟩ list where
  gathered := .skip fun k below => absurd below (k.not_lt_zero)
  found := rfl
  moved := fun _ => rfl
  stopped := fun stopped => by cases stopped

theorem stop (done : list ≠ [] ∨ nextId ≤ id) :
    Scan.Of used nextId id n list ⟨true, id, !list.isEmpty⟩ list where
  gathered := .stopped done
  found := rfl
  moved := fun going => by cases going
  stopped := fun _ => done.imp_right fun beyond => by omega

theorem after (first : Gathered used nextId id n list list')
    (rest : scan.Of used nextId (id + n) m list' list'') :
    scan.Of used nextId id (n + m) list list'' where
  gathered := first.trans rest.gathered
  found := rest.found
  moved := fun going => by rw [rest.moved going, Nat.add_assoc]
  stopped := fun stopped => id.add_assoc n m ▸ rest.stopped stopped

/-- A scan that has stopped looks at nothing more. -/
theorem halt (first : scan.Of used nextId id n list list') (stopped : scan.stopped = true) :
    scan.Of used nextId id (n + m) list list' where
  gathered := first.gathered.trans (.stopped (first.stopped stopped))
  found := first.found
  moved := fun going => by rw [stopped] at going; cases going
  stopped := fun _ => (first.stopped stopped).imp_right fun beyond => by omega

end Scan.Of

variable [DecidableEq τ] {id : ℕ} {result : Except FsmError ReuseGuard} {s' : State τ} {fails : ℕ → Bool}
  {reliable : Prop}

theorem storeHasFreeIds_true (flag : s.hasFreeIds = true) (quiet : s.unannounced = []) :
    s.storeHasFreeIds task true = s := by
  rw [storeHasFreeIds, quiet, if_pos rfl, filter_nil, ← flag, ← quiet]

theorem scanBits_runs (task : τ) (nextId : ℕ) (byte : BitVec 8) (left : ℕ) (small : left ≤ 8) (id : ℕ)
    (list : List ℕ) (clock : ℕ) (flag : s.hasFreeIds = true) (quiet : s.unannounced = [])
    (bits : ∀ k < left, bitUsed byte (8 - left + k) = s.used (id + k)) :
    ∃ scan list', Runs (exec fails) task (scanBits nextId byte left id !list.isEmpty)
      (s.withList list clock) scan (s.withList list' clock) ∧
      scan.Of s.used nextId id left list list' := by
  induction left generalizing id list with
  | zero => exact ⟨_, list, .ret _ _, .none _ _ _ _⟩
  | succ left ih =>
    have bit : bitUsed byte (8 - (left + 1)) = s.used id := bits 0 (left.succ_pos)
    have rest (list : List ℕ) := ih (by omega) (id + 1) list fun k below => by
      rw [show 8 - left + k = 8 - (left + 1) + (k + 1) by omega, bits (k + 1) (by omega),
        Nat.add_right_comm, Nat.add_assoc]
    unfold scanBits
    split_ifs with beyond used
    · exact ⟨_, list, .ret _ _, .stop (.inr beyond)⟩
    · obtain ⟨scan, list', run, of⟩ := rest list
      refine ⟨scan, list', run, left.add_comm 1 ▸ of.after (.skip fun k below => ?_)⟩
      obtain rfl := Nat.lt_one_iff.mp below
      exact bit.symm.trans used
    · have free : s.used id = false := bit ▸ Bool.not_eq_true _ ▸ used
      have flagged : exec fails task (.storeHasFreeIds true) (s.withList list clock) =
          some (s.withList list clock, ()) :=
        congrArg (fun after => some (after, ()))
          (storeHasFreeIds_true flag quiet)
      by_cases room : list.length < fastSize
      · obtain ⟨scan, list', run, of⟩ := rest (list ++ [id])
        refine ⟨scan, list', .op flagged (.op (if_pos room) ?_),
          left.add_comm 1 ▸ of.after (.push (Nat.lt_of_not_le beyond) free)⟩
        rwa [show (!(list ++ [id]).isEmpty) = true by simp] at run
      · have some_found : list ≠ [] := by
          rintro rfl
          exact room (by decide)
        have of : Scan.Of s.used nextId id (left + 1) list ⟨true, id, !list.isEmpty⟩ list :=
          .stop (.inl some_found)
        rw [show (!list.isEmpty) = true by simp [some_found]] at of
        exact ⟨_, list, .op flagged (.op (if_neg room) (.ret _ _)), of⟩

theorem bitUsed_full {bidx : ℕ} (small : bidx < 8) : bitUsed 0xff bidx = true := by
  interval_cases bidx <;> rfl

theorem scanBytes_runs (task : τ) (nextId : ℕ) (block : Block) (left : ℕ) (small : left ≤ blockSizeBytes)
    (id : ℕ) (list : List ℕ) (clock : ℕ) (flag : s.hasFreeIds = true) (quiet : s.unannounced = [])
    (bits : ∀ k < left * 8,
      bitUsed (block (blockSizeBytes - left + k / 8)) (k % 8) = s.used (id + k)) :
    ∃ scan list', Runs (exec fails) task (scanBytes nextId block left id !list.isEmpty)
      (s.withList list clock) scan (s.withList list' clock) ∧
      scan.Of s.used nextId id (left * 8) list list' := by
  induction left generalizing id list with
  | zero => exact ⟨_, list, .ret _ _, .none _ _ _ _⟩
  | succ left ih =>
    have byte (k : ℕ) (below : k < 8) :
        bitUsed (block (blockSizeBytes - (left + 1))) k = s.used (id + k) := by
      have bit := bits k (by omega)
      rwa [Nat.div_eq_of_lt below, Nat.mod_eq_of_lt below] at bit
    have rest (list : List ℕ) := ih (by omega) (id + 8) list fun k below => by
      rw [show blockSizeBytes - left + k / 8 = blockSizeBytes - (left + 1) + (k + 8) / 8 by omega,
        show k % 8 = (k + 8) % 8 by omega, bits (k + 8) (by omega), Nat.add_right_comm, Nat.add_assoc]
    have total : (left + 1) * 8 = 8 + left * 8 := by omega
    unfold scanBytes
    split_ifs with beyond full
    · exact ⟨_, list, .ret _ _, .stop (.inr beyond)⟩
    · obtain ⟨scan, list', run, of⟩ := rest list
      refine ⟨scan, list', run, total ▸ of.after (.skip fun k below => ?_)⟩
      rw [← byte k below, full, bitUsed_full below]
    · obtain ⟨scan, list', run, of⟩ := scanBits_runs task nextId
        (block (blockSizeBytes - (left + 1))) 8 le_rfl id list clock flag quiet fun k below => by
          rw [Nat.sub_self, Nat.zero_add, byte k below]
      cases going : scan.stopped with
      | true =>
        refine ⟨scan, list', run.bind ?_, total ▸ of.halt going⟩
        rw [going]
        exact .ret _ _
      | false =>
        obtain ⟨scan', list'', run', of'⟩ := rest list'
        refine ⟨scan', list'', run.bind ?_, total ▸ of'.after of.gathered⟩
        rw [going, of.moved going, of.found]
        exact run'

/-- A scan of blocks, whatever reads fail: it only touches the list, and if it comes to its end it has
gathered the free ids. -/
theorem scanBlocks_runs (task : τ) (fails : ℕ → Bool) (nextId left blockId : ℕ) (list : List ℕ) (clock : ℕ)
    (flag : s.hasFreeIds = true) (quiet : s.unannounced = []) :
    ∃ res list' clock', Runs (exec fails) task
      (scanBlocks nextId left blockId (blockId * blockSizeIds) !list.isEmpty)
      (s.withList list clock) res (s.withList list' clock') ∧
      (∀ found, res = .ok found → found = !list'.isEmpty ∧
        Gathered s.used nextId (blockId * blockSizeIds) (left * blockSizeIds) list list') ∧
      ((∀ n, fails n = false) → (∀ k < blockId + left, (s.blocks k).isSome = true) → ∃ found, res = .ok found) := by
  induction left generalizing blockId list clock with
  | zero =>
    refine ⟨_, list, clock, .ret _ _, fun found same => ⟨(Except.ok.inj same).symm, ?_⟩, fun _ _ => ⟨_, rfl⟩⟩
    exact (Scan.Of.none _ _ _ _).gathered
  | succ left ih =>
    have size : blockSizeBytes * 8 = blockSizeIds := by decide
    have total : (left + 1) * blockSizeIds = blockSizeIds + left * blockSizeIds := by
      rw [Nat.succ_mul, Nat.add_comm]
    unfold scanBlocks
    split_ifs with beyond
    · exact ⟨_, list, clock, .ret _ _, fun found same => ⟨(Except.ok.inj same).symm, .stopped (.inr beyond)⟩,
        fun _ _ => ⟨_, rfl⟩⟩
    have read : exec fails task (.readBlock blockId) (s.withList list clock) =
      some (s.withList list (clock + 1), if fails clock then none else s.blocks blockId) := rfl
    cases out : if fails clock then none else s.blocks blockId with
    | none =>
      rw [out] at read
      refine ⟨_, list, clock + 1, .op read (.ret _ _), fun found same => (by cases same), fun works stored => ?_⟩
      obtain ⟨block, found⟩ := isSome_iff_exists.mp (stored blockId (by omega))
      rw [works clock, if_neg Bool.false_ne_true, found] at out
      cases out
    | some block =>
      rw [out] at read
      have stored : s.blocks blockId = some block := by
        split_ifs at out
        exact out
      obtain ⟨scan, list', run, of⟩ := scanBytes_runs task nextId block blockSizeBytes
        le_rfl (blockId * blockSizeIds) list (clock + 1) flag quiet fun k below => by
          rw [Nat.sub_self, Nat.zero_add]
          exact bitSet_of_block stored (size ▸ below)
      cases going : scan.stopped with
      | true =>
        refine ⟨.ok scan.found, list', clock + 1, .op read (run.bind ?_), fun found same => ⟨?_, ?_⟩,
          fun _ _ => ⟨_, rfl⟩⟩
        · rw [going]
          exact .ret _ _
        · rw [← Except.ok.inj same, of.found]
        · rw [total]
          exact (of.halt going).gathered
      | false =>
        obtain ⟨res, list'', clock', run', gathers, ends⟩ := ih (blockId + 1) list' (clock + 1)
        rw [Nat.succ_mul] at run' gathers
        refine ⟨res, list'', clock', .op read (run.bind ?_), fun found same =>
          (gathers found same).imp_right fun rest => ?_, fun works stored =>
            ends works fun k below => stored k (by omega)⟩
        · rw [going, of.moved going, of.found]
          exact run'
        · rw [total]
          exact of.gathered.trans rest

/-! ## Taking an id -/

/-- The state after a task has marked an id used and counted it. -/
def State.take (s : State τ) (task : τ) (id : ℕ) : State τ :=
  { s with
    blocks := (writeBit s.blocks id true).1
    totalUsed := s.totalUsed + 1
    clock := s.clock + 1
    taken := update s.taken id (s.taken id + 1)
    owed := s.owed ++ [(task, id)] }

theorem updateStatus_same {used : Bool} {byte : BitVec 8} {bidx : ℕ} (small : bidx < 8)
    (same : bitUsed byte bidx = used) : (updateStatus used byte bidx).1 = byte := by
  refine BitVec.eq_of_getLsbD_eq fun i inside => ?_
  have bit := bitUsed_updateStatus used byte small (show 7 - i < 8 by omega)
  rw [bitUsed_eq, bitUsed_eq, show 7 - (7 - i) = i by omega] at bit
  rw [bit]
  split_ifs with here
  · rw [← same, bitUsed_eq, ← here, show 7 - (7 - i) = i by omega]
  · rfl

/-- To write the value that is there changes nothing. -/
theorem writeBit_same {blocks : ℕ → Option Block} {used : Bool}
    (stored : (blocks (id / blockSizeIds)).isSome = true) (same : bitSet blocks id = used) :
    writeBit blocks id used = (blocks, false) := by
  obtain ⟨block, found⟩ := isSome_iff_exists.mp stored
  have unchanged : (writeBit blocks id used).2 = false := by
    rw [writeBit_changed, same, bne_self_eq_false]
  replace found : blocks (indexesForId id).1 = some block := found
  have byte : (updateStatus used (block (indexesForId id).2.1) (indexesForId id).2.2).1 =
      block (indexesForId id).2.1 :=
    updateStatus_same (indexesForId_bit_lt id) (by simpa [bitSet, found] using same)
  refine Prod.ext ?_ unchanged
  simp only [writeBit, found, getD_some, byte, update_eq_self]
  rw [← found, update_eq_self]

theorem markIdUnchecked_runs_same (set : s.used id = true)
    (stored : (s.blocks (id / blockSizeIds)).isSome = true) :
    Runs (exec fun _ => false) task (markIdUnchecked id true) s (.ok false) s.tick := by
  have unchanged := writeBit_same stored set
  have step : exec (fun _ => false) task (.rmw id true) s = some (s.tick, some false) := by
    change some ((s.tick.rmw task id true).1, some (s.tick.rmw task id true).2) = _
    simp only [rmw, tick, unchanged]
    rfl
  exact .op step (.ret _ _)

theorem markIdUnchecked_runs_take (task : τ) (clear : s.used id = false)
    (settled : s.unsettled = []) :
    Runs (exec fun _ => false) task (markIdUnchecked id true) s (.ok true) (s.take task id) := by
  have ne : s.tick.used id ≠ true := by
    change s.used id ≠ true
    rw [clear]
    nofun
  have step : exec (fun _ => false) task (.rmw id true) s =
      some ((s.tick.rmw task id true).1, some true) := by
    change some ((s.tick.rmw task id true).1, some (s.tick.rmw task id true).2) = _
    rw [State.rmw_changed, bne_iff_ne.mpr ne]
  have same : (s.unsettled ++ [(task, true)]).erase (task, true) = s.unsettled := by
    rw [settled]
    simp
  refine .op step (.op rfl (runs_ret_iff.mpr ⟨rfl, ?_⟩))
  rw [State.rmw_of_ne ne]
  simp only [State.take, State.noteChange, State.tick, if_true, same]

theorem markId_runs {used : Bool} {result : Except FsmError Bool} (unlocked : s.minterLock = none)
    (below : id < s.idMinter.nextId)
    (run : Runs (exec fun _ => false) task (markIdUnchecked id used) s result s') :
    Runs (exec fun _ => false) task (markId id used) s result s' := by
  have read : exec (fun _ => false) task .readMinter s = some (s, s.idMinter) :=
    if_neg (by rw [unlocked]; nofun)
  refine .op read ?_
  rwa [if_neg below.not_ge]

/-- An entry of the list that is in use is skipped. -/
theorem claim_runs_used (unlocked : s.minterLock = none) (below : id < s.idMinter.nextId)
    (set : s.used id = true) (stored : (s.blocks (id / blockSizeIds)).isSome = true) :
    Runs (exec fun _ => false) task (claim id) s (.inl ()) s.tick :=
  (markId_runs unlocked below (markIdUnchecked_runs_same set stored)).bind (.ret _ _)

theorem claim_runs_free (task : τ) (unlocked : s.minterLock = none) (below : id < s.idMinter.nextId)
    (clear : s.used id = false) (settled : s.unsettled = []) :
    Runs (exec fun _ => false) task (claim id) s (.inr (.ok (some id))) (s.take task id) :=
  (markId_runs unlocked below (markIdUnchecked_runs_take task clear settled)).bind (.ret _ _)

/-- The id is in use and below the counter. -/
structure State.Took (s : State τ) (id : ℕ) : Prop where
  used : s.used id = true
  below : id < s.idMinter.nextId

omit [DecidableEq τ] in
theorem State.idMinter_rmw (s : State τ) (task : τ) (id : ℕ) (used : Bool) :
    (s.rmw task id used).1.idMinter = s.idMinter := by
  by_cases same : s.used id = used
  · rw [rmw_of_same same]
  · rw [rmw_of_ne same]
    cases used <;> rfl

/-- A mark that fails changes nothing but the clock, and one that finds the bit as it is to be writes it
back. -/
theorem markIdUnchecked_runs_cases {used : Bool} {result : Except FsmError Bool}
    (run : Runs (exec fails) task (markIdUnchecked id used) s result s') :
    (∃ error, result = .error error) ∧ s' = s.tick ∨
      ∃ changed, result = .ok changed ∧ (∀ other, s'.used other = if other = id then used else s.used other) ∧
        s'.idMinter = s.idMinter ∧ (changed = false → s.used id = used ∧ s' = (s.tick.rmw task id used).1) := by
  obtain ⟨_, out, step, run⟩ := run.of_op
  simp only [exec] at step
  split_ifs at step with fault
  · cases step
    obtain ⟨rfl, rfl⟩ := run.of_ret
    exact .inl ⟨⟨_, rfl⟩, rfl⟩
  cases step
  have bits := s.tick.used_rmw task id used
  have minter := idMinter_rmw s.tick task id used
  right
  cases changed : (s.tick.rmw task id used).2 with
  | false =>
    rw [changed] at run
    obtain ⟨rfl, rfl⟩ := run.of_ret
    exact ⟨false, rfl, bits, minter, fun _ =>
      ⟨show s.tick.used id = used by simpa [rmw_changed] using changed, rfl⟩⟩
  | true =>
    rw [changed] at run
    cases used with
    | true =>
      replace run := run.after rfl
      obtain ⟨rfl, rfl⟩ := run.of_ret
      exact ⟨true, rfl, bits, minter, (absurd · Bool.false_ne_true.symm)⟩
    | false =>
      replace run := run.after rfl
      obtain ⟨_, room, pushed, run⟩ := run.of_op
      replace run := run.after rfl
      obtain ⟨rfl, rfl⟩ := run.of_ret
      simp only [exec] at pushed
      split_ifs at pushed <;> cases pushed <;> exact ⟨true, rfl, bits, minter, (absurd · Bool.false_ne_true.symm)⟩

theorem markId_runs_cases {used : Bool} {result : Except FsmError Bool}
    (run : Runs (exec fails) task (markId id used) s result s') :
    (∃ error, result = .error error) ∧ s' = s ∨
      id < s.idMinter.nextId ∧ Runs (exec fails) task (markIdUnchecked id used) s result s' := by
  obtain ⟨_, minter, step, run⟩ := run.of_op
  simp only [exec] at step
  split_ifs at step
  cases step
  split_ifs at run with outside
  · obtain ⟨rfl, rfl⟩ := run.of_ret
    exact .inl ⟨⟨_, rfl⟩, rfl⟩
  · exact .inr ⟨Nat.lt_of_not_le outside, run⟩

/-- An entry of the list is taken, or nothing but the clock changes. -/
theorem claim_runs_any {result : Unit ⊕ Except FsmError (Option ℕ)}
    (run : Runs (exec fails) task (claim id) s result s') :
    result = .inr (.ok (some id)) ∧ s'.Took id ∨
      (result = .inl () ∨ ∃ error, result = .inr (.error error)) ∧
        ∃ clock, s' = s.withList s.fastFreeList clock := by
  rw [claim, monad_bind_eq, runs_bind_iff] at run
  obtain ⟨marked, s₁, mark, run⟩ := run
  obtain ⟨⟨error, rfl⟩, rfl⟩ | ⟨below, mark⟩ := markId_runs_cases mark
  · obtain ⟨rfl, rfl⟩ := run.of_ret
    exact .inr ⟨.inr ⟨_, rfl⟩, s'.clock, rfl⟩
  obtain ⟨⟨error, rfl⟩, rfl⟩ | ⟨changed, rfl, bits, minter, same⟩ := markIdUnchecked_runs_cases mark
  · obtain ⟨rfl, rfl⟩ := run.of_ret
    exact .inr ⟨.inr ⟨_, rfl⟩, s.clock + 1, rfl⟩
  obtain ⟨rfl, rfl⟩ := run.of_ret
  cases changed with
  | true => exact .inl ⟨rfl, (bits id).trans (if_pos rfl), minter ▸ below⟩
  | false =>
    obtain ⟨set, rfl⟩ := same rfl
    refine .inr ⟨.inl rfl, s.clock + 1, ?_⟩
    have same := writeBit_same (isSome_iff_ne_none.mpr (bitSet_stored set)) set
    simp only [rmw, tick, same]
    rfl

/-! ## The list and the scan -/

/-- What a scan looks through: ids below the counter and in blocks that exist. -/
def State.scanned (s : State τ) : ℕ := (s.idMinter.maxBlock + 1) * blockSizeIds

/-- The least free id that a scan finds. -/
def State.leastFree (s : State τ) : Option ℕ :=
  (range' 0 s.scanned).find? fun id => id < s.idMinter.nextId ∧ s.used id = false

/-- The id that `next_id` reuses if it looks for one. -/
def State.reusable (s : State τ) : Option ℕ :=
  (s.fastFreeList.find? fun id => s.used id = false).or s.leastFree

omit [DecidableEq τ] in
theorem leastFree_spec (found : s.leastFree = some id) :
    id < s.idMinter.nextId ∧ s.used id = false := by
  simpa using find?_some found

omit [DecidableEq τ] in
theorem leastFree_eq_none : s.leastFree = none ↔
    ∀ id < s.scanned, id < s.idMinter.nextId → s.used id = true := by
  simp [leastFree]

/-- The locks that a search for a free id takes are free, and the flag is set. -/
structure State.Searchable (s : State τ) : Prop where
  unlocked : s.minterLock = none
  refill : s.refillLock = []
  settled : s.unsettled = []
  quiet : s.unannounced = []
  flag : s.hasFreeIds = true
  stored : ∀ k ≤ s.idMinter.maxBlock, (s.blocks k).isSome = true
  listed : ∀ id ∈ s.fastFreeList, id < s.idMinter.nextId ∧ id / blockSizeIds ≤ s.idMinter.maxBlock

/-- A refill of an empty list finds the least free id first, or clears the flag, or a read fails. -/
theorem refillFastFreeList_runs (task : τ) (fails : ℕ → Bool) (unlocked : s.minterLock = none)
    (refill : s.refillLock = []) (flag : s.hasFreeIds = true) (quiet : s.unannounced = [])
    (empty : s.fastFreeList = []) :
    ∃ list clock, list.head? = s.leastFree ∧ Runs (exec fails) task refillFastFreeList s
        (.ok !list.isEmpty) { s.withList list clock with hasFreeIds := !list.isEmpty } ∨
      ((∀ n, fails n = false) → ¬ ∀ k ≤ s.idMinter.maxBlock, (s.blocks k).isSome = true) ∧
        ∃ error, Runs (exec fails) task refillFastFreeList s (.error error) (s.withList list clock) := by
  let held : State τ := { s with refillLock := s.refillLock ++ [(task, ())] }
  obtain ⟨res, list, clock, run, gathers, ends⟩ := scanBlocks_runs task fails (s := held)
    s.idMinter.nextId (s.idMinter.maxBlock + 1) 0 [] s.clock flag quiet
  have start : held.withList [] s.clock = held := by
    simp only [held, withList, empty]
  have lock : exec fails task .lockRefill s = some (held, ()) := if_pos (by rw [refill]; rfl)
  have look : exec fails task .isEmpty held = some (held, true) := by
    simp only [exec, held, empty, isEmpty_nil]
  have read : exec fails task .readMinter held = some (held, s.idMinter) :=
    if_neg (by simp [held, unlocked])
  have unheld : (s.refillLock ++ [(task, ())]).erase (task, ()) = s.refillLock := by
    rw [refill]
    simp
  rw [start] at run
  refine ⟨list, clock, ?_⟩
  cases res with
  | error error =>
    refine .inr ⟨fun works stored => ?_, error, .op lock (.op look (.op read (run.bind ?_)))⟩
    · obtain ⟨_, same⟩ := ends works fun k below => stored k (by omega)
      cases same
    · refine .op rfl (runs_ret_iff.mpr ⟨rfl, ?_⟩)
      simp only [held, withList, unheld]
  | ok found =>
    obtain ⟨rfl, gathered⟩ := gathers found rfl
    refine .inl ⟨gathered, .op lock (.op look (.op read (run.bind ?_)))⟩
    cases list with
    | nil =>
      refine .op rfl (.op rfl (runs_ret_iff.mpr ⟨rfl, ?_⟩))
      simp only [held, withList, storeHasFreeIds, unheld]
      rfl
    | cons id rest =>
      refine .op rfl (runs_ret_iff.mpr ⟨rfl, ?_⟩)
      simp only [held, withList, unheld, flag]
      rfl

/-- The state after a search that found an id to reuse, or none. -/
def State.afterSearch (s : State τ) (task : τ) (list : List ℕ) (clock : ℕ) : Option ℕ → State τ
  | some id => (s.withList list clock).take task id
  | none => { s.withList [] clock with hasFreeIds := false }

theorem reuse_runs (task : τ) (searchable : s.Searchable) : ∃ list clock, Runs (exec fun _ => false) task reuse s
    (.ok s.reusable) (s.afterSearch task list clock s.reusable) := by
  generalize entries : s.fastFreeList = list
  induction list generalizing s with
  | nil =>
    have pop : exec (fun _ => false) task .pop s = some (s, none) := by
      have same : { s with fastFreeList := [] } = s := by rw [← entries]
      simp only [exec, entries, tail_nil, head?_nil, same]
    have only : s.reusable = s.leastFree := by
      rw [reusable, entries, find?_nil, none_or]
    obtain ⟨list, clock, ⟨first, run⟩ | ⟨faulty, -⟩⟩ := refillFastFreeList_runs task (fun _ => false)
      searchable.unlocked searchable.refill searchable.flag searchable.quiet entries
    swap
    · exact absurd searchable.stored (faulty fun _ => rfl)
    rw [only, ← first]
    cases list with
    | nil => exact ⟨[], clock, .leave (.op pop (run.bind (.ret _ _)))⟩
    | cons id rest =>
      obtain ⟨below, free⟩ := leastFree_spec first.symm
      have flagged : s.withList (id :: rest) clock =
          { s.withList (id :: rest) clock with hasFreeIds := true } := by
        simp only [withList, searchable.flag]
      replace run : Runs (exec fun _ => false) task refillFastFreeList s (.ok true)
          (s.withList (id :: rest) clock) := by
        rw [flagged]
        exact run
      have claimed := claim_runs_free task (s := s.withList rest clock)
        searchable.unlocked below free searchable.settled
      exact ⟨rest, clock, .leave (.op pop (run.bind (.op rfl claimed)))⟩
  | cons id rest ih =>
    have pop : exec (fun _ => false) task .pop s = some (s.withList rest s.clock, some id) := by
      simp only [exec, entries]
      rfl
    obtain ⟨below, block⟩ := searchable.listed id (by rw [entries]; exact mem_cons_self)
    cases used : s.used id with
    | true =>
      have skipped : s.reusable = (s.withList rest (s.clock + 1)).reusable := by
        rw [reusable, entries, find?_cons_of_neg (by simp [used])]
        rfl
      obtain ⟨list, clock, run⟩ := ih (s := s.withList rest (s.clock + 1)) { searchable with
        listed := fun other mem =>
          searchable.listed other (by rw [entries]; exact mem_cons_of_mem _ mem) } rfl
      rw [skipped]
      exact ⟨list, clock, .again (.op pop (claim_runs_used searchable.unlocked below used
        (searchable.stored _ block))) run⟩
    | false =>
      have found : s.reusable = some id := by
        rw [reusable, entries, find?_cons_of_pos (by simp [used]), some_or]
      rw [found]
      exact ⟨rest, s.clock, .leave (.op pop (claim_runs_free task searchable.unlocked below used
        searchable.settled))⟩

/-- An id that a search returns is in use then. -/
theorem reuse_runs_took (run : Runs (exec fails) task reuse s (.ok (some id)) s') : s'.Took id := by
  refine Runs.of_repeatUntil (fun _ _ => True)
    (fun result s' => ∀ id, result = .ok (some id) → s'.Took id) ?_ run trivial id rfl
  rintro _ out s s' - run
  have claimed {id : ℕ} {s : State τ} (run : Runs (exec fails) task (claim id) s out s') :
      out.elim (fun _ => True) fun result => ∀ id, result = .ok (some id) → s'.Took id := by
    obtain ⟨rfl, took⟩ | ⟨rfl | ⟨error, rfl⟩, -⟩ := claim_runs_any run
    · rintro _ ⟨⟩
      exact took
    · trivial
    · rintro _ ⟨⟩
  obtain ⟨_, first, -, run⟩ := run.of_op
  cases first with
  | some id => exact claimed run
  | none =>
    obtain ⟨refilled, s₁, -, run⟩ := run.of_bind
    rcases refilled with error | _ | _
    · obtain ⟨rfl, rfl⟩ := run.of_ret
      rintro _ ⟨⟩
    · obtain ⟨rfl, rfl⟩ := run.of_ret
      rintro _ ⟨⟩
    · obtain ⟨_, second, -, run⟩ := run.of_op
      cases second with
      | some id => exact claimed run
      | none =>
        obtain ⟨rfl, rfl⟩ := run.of_ret
        rintro _ ⟨⟩

/-! ## Minting -/

/-- The counter moves on, over a new block if the old ones are full. -/
def State.grow (s : State τ) : State τ :=
  if s.idMinter.nextId / blockSizeIds = s.idMinter.maxBlock + 1 then
    { s.tick.newBlock (s.idMinter.nextId / blockSizeIds) with
      idMinter := ⟨s.idMinter.nextId + 1, s.idMinter.maxBlock + 1⟩ }
  else { s with idMinter := ⟨s.idMinter.nextId + 1, s.idMinter.maxBlock⟩ }

omit [DecidableEq τ] in
theorem State.Sound.used_grow (sound : s.Sound reliable) (id : ℕ) : s.grow.used id = s.used id := by
  unfold grow
  split_ifs with full
  · exact sound.used_newBlock full id
  · rfl

theorem expandTo_runs (mapped : s.idMinter.maxBlock < u32Max)
    (block : s.idMinter.nextId / blockSizeIds ≤ s.idMinter.maxBlock + 1) (lock : Option ℕ) :
    Runs (exec fun _ => false) task (expandTo s.idMinter s.idMinter.nextId)
      { s with minterLock := lock, idMinter := ⟨s.idMinter.nextId + 1, s.idMinter.maxBlock⟩ }
      (.ok ()) { s.grow with minterLock := lock } := by
  have exists_block : s.idMinter.maxBlock ≠ u32Max := mapped.ne
  rw [expandTo, indexesForId]
  dsimp only
  by_cases full : s.idMinter.nextId / blockSizeIds = s.idMinter.maxBlock + 1
  · rw [if_pos (.inr full), grow, if_pos full]
    refine .op rfl (.op rfl (runs_ret_iff.mpr ⟨rfl, ?_⟩))
    simp only [if_neg exists_block]
    rfl
  · rw [if_neg (not_or.mpr ⟨exists_block, full⟩), if_neg (by omega), grow, if_neg full]
    exact .ret _ _

theorem mint_runs (task : τ) (sound : s.Sound reliable) (unlocked : s.minterLock = none)
    (settled : s.unsettled = []) (small : s.idMinter.nextId < u32Max)
    (block : s.idMinter.nextId / blockSizeIds ≤ s.idMinter.maxBlock + 1) :
    Runs (exec fun _ => false) task mint s (.ok s.idMinter.nextId)
      (s.grow.take task s.idMinter.nextId) := by
  have clear : s.grow.used s.idMinter.nextId = false := by
    rw [sound.used_grow]
    by_contra set
    exact (sound.used_lt _ (by simpa using set)).1.false
  have lock : exec (fun _ => false) task .lockMinter s =
      some ({ s with minterLock := some s.idMinter.nextId }, s.idMinter) :=
    if_neg (by simp [unlocked])
  have grown : s.grow.unsettled = [] ∧ s.grow.minterLock = none := by
    rw [State.grow]
    split_ifs <;> exact ⟨settled, unlocked⟩
  have marked := markIdUnchecked_runs_take task
    (s := { s.grow with minterLock := some s.idMinter.nextId }) clear grown.1
  refine .op lock ?_
  rw [if_neg small.ne]
  refine .op rfl ((expandTo_runs sound.maxBlock_lt block _).bind (marked.bind (.op rfl
    (runs_ret_iff.mpr ⟨rfl, ?_⟩))))
  simp only [State.take, grown.2]

/-- No block is skipped, and the counter is left alone. -/
theorem expandTo_runs_block {minter : IdMinter}
    (run : Runs (exec fails) task (expandTo minter id) s (.ok ()) s') :
    (minter.maxBlock = u32Max ∨ id / blockSizeIds ≤ minter.maxBlock + 1) ∧
      s'.idMinter.nextId = s.idMinter.nextId := by
  rw [expandTo, indexesForId] at run
  dsimp only at run
  by_cases grows : minter.maxBlock = u32Max ∨ id / blockSizeIds = minter.maxBlock + 1
  · rw [if_pos grows] at run
    refine ⟨grows.imp_right le_of_eq, ?_⟩
    obtain ⟨_, written, step, run⟩ := run.of_op
    simp only [exec] at step
    split_ifs at step <;> cases step
    · cases run.of_ret.1
    · replace run := run.after rfl
      obtain ⟨-, rfl⟩ := run.of_ret
      rfl
  · split_ifs at run with beyond
    · cases run.of_ret.1
    · obtain ⟨-, rfl⟩ := run.of_ret
      exact ⟨.inr (Nat.le_of_not_lt beyond), rfl⟩

/-- What a mint that succeeds says about the map before and after it. -/
structure Minted (s : State τ) (id : ℕ) (s' : State τ) : Prop where
  id_eq : id = s.idMinter.nextId
  small : s.idMinter.nextId ≠ u32Max
  block : s.idMinter.maxBlock = u32Max ∨ s.idMinter.nextId / blockSizeIds ≤ s.idMinter.maxBlock + 1
  took : s'.Took id

theorem mint_runs_ok (run : Runs (exec fails) task mint s (.ok id) s') : Minted s id s' := by
  obtain ⟨_, _, lock, run⟩ := run.of_op
  simp only [exec] at lock
  split_ifs at lock with free
  cases lock
  split_ifs at run with limit
  · exact absurd run not_runs_panic
  · replace run := run.after rfl
    obtain ⟨expanded, _, expand, run⟩ := run.of_bind
    cases expanded with
    | error =>
      obtain ⟨_, _, _, run⟩ := run.of_op
      cases run.of_ret.1
    | ok =>
      obtain ⟨marked, _, mark, run⟩ := run.of_bind
      cases marked with
      | error =>
        obtain ⟨_, _, _, run⟩ := run.of_op
        cases run.of_ret.1
      | ok =>
        replace run := run.after rfl
        cases run.of_ret.1
        obtain ⟨-, rfl⟩ := run.of_ret
        obtain ⟨block, counter⟩ := expandTo_runs_block expand
        obtain ⟨⟨_, ⟨⟩⟩, _⟩ | ⟨_, _, bits, minter, _⟩ := markIdUnchecked_runs_cases mark
        refine ⟨rfl, limit, block, (bits _).trans (if_pos rfl), ?_⟩
        rw [minter, counter]
        exact Nat.lt_succ_self _

/-! ## `next_id` -/

/-- The id that `next_id` looks for, if it looks for one. -/
def State.reuses (s : State τ) : Option ℕ :=
  if s.reuseEnabled = true ∧ s.hasFreeIds = true then s.reusable else none

/-- The id that `next_id` returns. -/
def State.pick (s : State τ) : ℕ := s.reuses.getD s.idMinter.nextId

/-- A task takes the read side of the barrier. -/
def State.enter (s : State τ) (task : τ) : State τ :=
  { s with readers := s.readers ++ [(task, ())] }

/-- What `next_id` does with the outcome of its look for a free id. -/
def concluded (barrier : Barrier) : Except FsmError (Option ℕ) → Code (Except FsmError ReuseGuard)
  | .error error => do
      let _ : Unit ← access .unlockBarrier
      pure (.error error)
  | .ok (some id) => pure (.ok ⟨id, barrier⟩)
  | .ok none => mintGuarded barrier

/-- `next_id` looks for a free id if the flags say so, and else goes on as if it had found none. -/
theorem nextId_runs_iff :
    Runs (exec fails) task nextId s result s' ↔
      Runs (exec fails) task ((if s.reuseEnabled = true ∧ s.hasFreeIds = true then reuse
        else .ret (.ok none)).bind (concluded s.barrier)) (s.enter task) result s' := by
  have lock : exec fails task .lockBarrier s = some (s.enter task, s.barrier) := rfl
  refine (runs_op_iff_of_eq lock).trans ((runs_op_iff_of_eq rfl).trans ?_)
  cases enabled : s.reuseEnabled with
  | false =>
    rw [show (s.enter task).reuseEnabled = false from enabled]
    exact Iff.rfl
  | true =>
    rw [show (s.enter task).reuseEnabled = true from enabled]
    refine (runs_op_iff_of_eq rfl).trans ?_
    cases flag : s.hasFreeIds with
    | false =>
      rw [show (s.enter task).hasFreeIds = false from flag]
      exact Iff.rfl
    | true =>
      rw [show (s.enter task).hasFreeIds = true from flag]
      exact Iff.rfl

omit [DecidableEq τ] in
theorem State.Sound.searchable (sound : s.Sound reliable) (rest : s.AtRest)
    (flag : s.hasFreeIds = true) : s.Searchable where
  unlocked := rest.unlocked
  refill := rest.refill
  settled := rest.unsettled
  quiet := rest.unannounced
  flag
  stored := sound.stored
  listed := fun id mem => by
    have covers := sound.listed id mem
    rwa [Covers, counter_of_unlocked rest.unlocked] at covers

/-- The state in which `next_id` goes on to mint. -/
def State.searched (s : State τ) (task : τ) (clock : ℕ) : State τ :=
  if s.reuseEnabled = true ∧ s.hasFreeIds = true then
    { (s.enter task).withList [] clock with hasFreeIds := false }
  else s.enter task

theorem nextId_runs_reuse (task : τ) (searchable : s.hasFreeIds = true → s.Searchable)
    (found : s.reuses = some id) :
    ∃ list clock, Runs (exec fun _ => false) task nextId s (.ok ⟨id, s.barrier⟩)
      (((s.enter task).withList list clock).take task id) := by
  rw [reuses] at found
  split_ifs at found with looks
  obtain ⟨list, clock, run⟩ := reuse_runs task (s := s.enter task) { searchable looks.2 with }
  rw [show (s.enter task).reusable = some id from found] at run
  refine ⟨list, clock, nextId_runs_iff.mpr ?_⟩
  rw [if_pos looks]
  exact run.bind (.ret _ _)

/-- Without an id to reuse, `next_id` is a mint under the barrier. -/
theorem nextId_runs_mint_iff (task : τ) (searchable : s.hasFreeIds = true → s.Searchable)
    (absent : s.reuses = none) : ∃ clock, ∀ (result : Except FsmError ReuseGuard) (s' : State τ),
      Runs (exec fun _ => false) task nextId s result s' ↔
        Runs (exec fun _ => false) task (mintGuarded s.barrier) (s.searched task clock) result s' := by
  rw [reuses] at absent
  unfold searched
  split_ifs at absent ⊢ with looks
  · obtain ⟨list, clock, run⟩ := reuse_runs task (s := s.enter task) { searchable looks.2 with }
    rw [show (s.enter task).reusable = none from absent] at run
    refine ⟨clock, fun result s' => nextId_runs_iff.trans ?_⟩
    rw [if_pos looks]
    exact run.bind_iff
  · refine ⟨0, fun result s' => nextId_runs_iff.trans ?_⟩
    rw [if_neg looks]
    exact Iff.rfl

variable {reliable : Prop}

omit [DecidableEq τ] in
theorem State.used_take (s : State τ) (task : τ) (id other : ℕ) :
    (s.take task id).used other = if other = id then true else s.used other :=
  bitSet_writeBit s.blocks id true other

omit [DecidableEq τ] in
theorem State.Sound.reuses_spec (sound : s.Sound reliable) (rest : s.AtRest)
    (found : s.reuses = some id) : id < s.idMinter.nextId ∧ s.used id = false := by
  rw [reuses] at found
  split_ifs at found with looks
  obtain listed | ⟨-, least⟩ := or_eq_some_iff.mp found
  · exact ⟨((sound.searchable rest looks.2).listed id (mem_of_find?_eq_some listed)).1,
      by simpa using find?_some listed⟩
  · exact leastFree_spec least

omit [DecidableEq τ] in
theorem State.Sound.pick_free (sound : s.Sound reliable) (rest : s.AtRest) :
    s.used s.pick = false := by
  rw [pick]
  cases found : s.reuses with
  | some id => exact (sound.reuses_spec rest found).2
  | none =>
    by_contra set
    exact (sound.used_lt _ (by simpa using set)).1.false

/-- `next_id` takes the id it picks and leaves every other bit alone. -/
theorem nextId_runs (task : τ) (sound : s.Sound reliable) (rest : s.AtRest)
    (room : s.reuses = none → s.idMinter.nextId < u32Max ∧
      s.idMinter.nextId / blockSizeIds ≤ s.idMinter.maxBlock + 1) :
    ∃ s', Runs (exec fun _ => false) task nextId s (.ok ⟨s.pick, s.barrier⟩) s' ∧
      (∀ other, s'.used other = if other = s.pick then true else s.used other) ∧
      (s.reuses ≠ none → s'.idMinter = s.idMinter) := by
  rw [pick]
  cases found : s.reuses with
  | some id =>
    obtain ⟨list, clock, run⟩ := nextId_runs_reuse task (sound.searchable rest) found
    exact ⟨_, run, fun other => used_take _ task id other, fun _ => rfl⟩
  | none =>
    obtain ⟨clock, run⟩ := nextId_runs_mint_iff task (sound.searchable rest) found
    have same : (s.searched task clock).idMinter = s.idMinter ∧
        (s.searched task clock).minterLock = none ∧ (s.searched task clock).unsettled = [] ∧
        (s.searched task clock).used = s.used ∧ (s.searched task clock).Sound reliable := by
      unfold searched
      split_ifs
      · exact ⟨rfl, rest.unlocked, rest.unsettled, rfl, { sound with listed := nofun }⟩
      · exact ⟨rfl, rest.unlocked, rest.unsettled, rfl, { sound with }⟩
    obtain ⟨minter, unlocked, settled, used, sound'⟩ := same
    have minted := mint_runs task sound' unlocked settled (minter ▸ (room found).1)
      (minter ▸ (room found).2)
    rw [minter] at minted
    refine ⟨_, (run _ _).mpr (minted.bind (.ret _ _)), fun other => ?_, absurd rfl⟩
    rw [used_take, sound'.used_grow, used]
    rfl

/-- `next_id` returns no other id, and mints one only below the limit of the counter. -/
theorem nextId_runs_id (sound : s.Sound reliable) (rest : s.AtRest) {guard : ReuseGuard}
    (run : Runs (exec fun _ => false) task nextId s (.ok guard) s') :
    guard.id = s.pick ∧ (s.reuses = none → s.idMinter.nextId ≠ u32Max) := by
  rw [pick]
  cases found : s.reuses with
  | some id =>
    obtain ⟨list, clock, run'⟩ := nextId_runs_reuse task (sound.searchable rest) found
    cases (run.unique run').1
    exact ⟨rfl, fun none => by cases none⟩
  | none =>
    obtain ⟨clock, run_iff⟩ := nextId_runs_mint_iff task (sound.searchable rest) found
    have minter : (s.searched task clock).idMinter = s.idMinter := by
      unfold searched
      split_ifs <;> rfl
    obtain ⟨result, s₁, minted, run⟩ := runs_bind_iff.mp ((run_iff _ _).mp run)
    cases result with
    | error error =>
      obtain ⟨_, _, _, run⟩ := run.of_op
      cases run.of_ret.1
    | ok id =>
      cases run.of_ret.1
      have small := mint_runs_ok minted
      exact ⟨small.id_eq.trans (congrArg IdMinter.nextId minter), fun _ => minter ▸ small.small⟩

/-- Whenever `next_id` succeeds, it takes an id that was free and leaves every other bit alone. -/
theorem nextId_runs_used (sound : s.Sound True) (rest : s.AtRest) {guard : ReuseGuard}
    (run : Runs (exec fun _ => false) task nextId s (.ok guard) s') :
    guard.barrier = s.barrier ∧ s.used guard.id = false ∧
      ∀ other, s'.used other = if other = guard.id then true else s.used other := by
  have limit := (nextId_runs_id sound rest run).2
  have block : s.idMinter.nextId / blockSizeIds ≤ s.idMinter.maxBlock + 1 :=
    Nat.div_le_of_le_mul (Nat.mul_comm _ _ ▸ sound.room trivial rest.unlocked)
  obtain ⟨s₁, taken, used, -⟩ := nextId_runs task sound rest fun none =>
    ⟨lt_of_le_of_ne sound.nextId_le (limit none), block⟩
  obtain ⟨same, rfl⟩ := run.unique taken
  cases same
  exact ⟨rfl, sound.pick_free rest, used⟩

/-- Nothing was freed or returned. -/
structure State.OnlyTook (s s' : State τ) : Prop where
  freed : s'.freed = s.freed
  returned : s'.returned = s.returned
  taken : ∀ id, s.taken id ≤ s'.taken id

omit [DecidableEq τ] in
theorem State.OnlyTook.refl (s : State τ) : s.OnlyTook s := ⟨rfl, rfl, fun _ => le_rfl⟩

omit [DecidableEq τ] in
theorem State.OnlyTook.trans (s s' s'' : State τ) (first : s.OnlyTook s') (second : s'.OnlyTook s'') :
    s.OnlyTook s'' :=
  ⟨second.freed.trans first.freed, second.returned.trans first.returned,
    fun id => (first.taken id).trans (second.taken id)⟩

theorem exec_onlyTook (o : Op) (s s' : State τ) (r : o.Res) (allowed : o.ForNextId)
    (step : exec fails task o s = some (s', r)) : s.OnlyTook s' := by
  cases o with
  | rmw id used =>
    cases used with
    | false => exact allowed.elim
    | true =>
      simp only [exec] at step
      split_ifs at step
      · cases step
        exact ⟨rfl, rfl, fun _ => le_rfl⟩
      · cases step
        simp only [rmw]
        split_ifs
        · refine ⟨rfl, rfl, fun other => ?_⟩
          change s.taken other ≤ update s.taken id (s.taken id + 1) other
          by_cases here : other = id
          · rw [here, update_self]
            exact Nat.le_succ _
          · rw [update_of_ne here]
        · exact ⟨rfl, rfl, fun _ => le_rfl⟩
  | fetchSubTotal | returns | enableQuantization | enableReuse | maxIdForBackfill =>
    exact allowed.elim
  | push | readMinter | lockMinter | writeBlock | lockRefill =>
    simp only [exec] at step
    split_ifs at step <;> cases step <;>
      exact ⟨rfl, rfl, fun _ => le_rfl⟩
  | _ =>
    cases step
    exact ⟨rfl, rfl, fun _ => le_rfl⟩

theorem nextId_runs_onlyTook (run : Runs (exec fails) task nextId s result s') : s.OnlyTook s' :=
  Runs.keeps OnlyTook .refl .trans exec_onlyTook nextId_calls run

/-- What `next_id` finds used stays used, whatever callbacks fail. -/
theorem nextId_runs_keeps (faults : reliable → ∀ n, fails n = false) (sound : s.Sound reliable)
    (rest : s.AtRest) (run : Runs (exec fails) task nextId s result s') (set : s.used id = true) :
    s'.used id = true := by
  have history := nextId_runs_onlyTook run
  obtain ⟨token', -, inv⟩ := (protocol_sound faults).runs (.of_rest sound rest)
    (nextId_wp Token.fresh_calm) run
  have before := sound.taken id
  have after := inv.sound.taken id
  have more := history.taken id
  rw [set, if_pos rfl] at before
  rw [history.freed] at after
  by_contra clear
  rw [if_neg clear] at after
  omega

/-- An id that `next_id` returns is used, whatever callbacks have failed. -/
theorem nextId_runs_taken {guard : ReuseGuard}
    (run : Runs (exec fails) task nextId s (.ok guard) s') : s'.Took guard.id := by
  obtain ⟨looked, s₁, look, run⟩ := runs_bind_iff.mp (nextId_runs_iff.mp run)
  rcases looked with error | _ | id
  · obtain ⟨_, _, _, run⟩ := run.of_op
    cases run.of_ret.1
  · obtain ⟨result, s₂, minted, run⟩ := run.of_bind
    cases result with
    | error error =>
      obtain ⟨_, _, _, run⟩ := run.of_op
      cases run.of_ret.1
    | ok id =>
      obtain ⟨⟨⟩, rfl⟩ := run.of_ret
      exact (mint_runs_ok minted).took
  · obtain ⟨⟨⟩, rfl⟩ := run.of_ret
    split_ifs at look
    · exact reuse_runs_took look
    · cases look.of_ret.1

/-! ## `mark_free` -/

/-- Whenever `mark_free` succeeds, it clears the bit of its id and no other. -/
theorem markFree_runs_cases {result : Except FsmError Unit}
    (run : Runs (exec fails) task (markFree id) s result s') :
    (∃ error, result = .error error) ∧ s'.used = s.used ∨
      result = .ok () ∧ ∀ other, s'.used other = if other = id then false else s.used other := by
  rw [markFree, monad_bind_eq, runs_bind_iff] at run
  obtain ⟨result, s₁, marked, run⟩ := run
  obtain ⟨⟨error, rfl⟩, rfl⟩ | ⟨-, marked⟩ := markId_runs_cases marked
  · obtain ⟨rfl, rfl⟩ := run.of_ret
    exact .inl ⟨⟨_, rfl⟩, rfl⟩
  obtain ⟨⟨error, rfl⟩, rfl⟩ | ⟨changed, rfl, bits, -⟩ := markIdUnchecked_runs_cases marked
  · obtain ⟨rfl, rfl⟩ := run.of_ret
    exact .inl ⟨⟨_, rfl⟩, rfl⟩
  · obtain ⟨rfl, rfl⟩ := run.of_ret
    exact .inr ⟨rfl, bits⟩

end DiskAnn.Garnet.Fsm
