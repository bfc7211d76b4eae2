import DiskAnn.Garnet.FsmRecovery
import DiskAnn.Garnet.FsmSolo

/-! # After a call that failed

A mint moves the counter on before it writes a new block and before it sets the bit, and nothing takes
the counter back where one of these fails. A failed look for an id to reuse leaves the map as it was, but
for the list. Once enough mints have failed the counter is beyond the block that comes next, and every
further mint fails too.
-/

namespace DiskAnn.Garnet.Fsm

open Machine Prog List Function State

variable {τ : Type} [DecidableEq τ] {s s' t : State τ} {task : τ} {fails : ℕ → Bool}

/-! ## History -/

/-- The state without its history and the readers of the barrier. -/
def State.forget (s : State τ) : State τ :=
  { s with
    readers := []
    taken := fun _ => 0
    freed := fun _ => 0
    returned := fun _ => 0
    owed := []
    unsettled := []
    unannounced := [] }

omit [DecidableEq τ] in
theorem forget_rmw (s : State τ) (task : τ) (id : ℕ) (used : Bool) :
    (s.rmw task id used).1.forget = { s.forget with blocks := (writeBit s.blocks id used).1 } := by
  cases changed : (writeBit s.blocks id used).2 <;> cases used <;>
    simp [rmw, forget, noteChange, changed]

/-- What an operation of `next_id` does, and its answer, do not depend on the history. -/
theorem exec_forget {o : Op} {r : o.Res} (allowed : o.ForNextId)
    (step : exec fails task o s = some (s', r)) (alike : s.forget = t.forget) :
    ∃ t', exec fails task o t = some (t', r) ∧ s'.forget = t'.forget := by
  cases s
  obtain ⟨rfl, rfl, rfl, rfl, rfl, rfl, rfl, rfl, rfl, rfl⟩ := alike
  cases o with
  | fetchSubTotal | returns | enableQuantization | enableReuse | maxIdForBackfill => exact allowed.elim
  | rmw id used =>
    simp only [exec] at step ⊢
    split_ifs at step ⊢ <;> cases step
    · exact ⟨_, rfl, rfl⟩
    · refine ⟨_, rfl, ?_⟩
      rw [forget_rmw, forget_rmw]
      rfl
  | push | readMinter | lockMinter | writeBlock | lockRefill =>
    simp only [exec] at step ⊢
    split_ifs at step ⊢ <;> cases step <;> exact ⟨_, rfl, rfl⟩
  | _ =>
    cases step
    exact ⟨_, rfl, rfl⟩

theorem nextId_runs_forget {res : Except FsmError ReuseGuard}
    (run : Runs (exec fails) task nextId s res s') (alike : s.forget = t.forget) :
    ∃ t', Runs (exec fails) task nextId t res t' ∧ s'.forget = t'.forget :=
  Runs.simulate (fun s t => s.forget = forget t)
    (fun _ _ _ _ _ allowed step alike => exec_forget allowed step alike) nextId_calls run alike

/-- The callbacks that have been made are the ones before the clock. -/
theorem exec_inside {fails' : ℕ → Bool} {limit : ℕ} (agree : ∀ n < limit, fails n = fails' n) (o : Op)
    (s s' : State τ) (r : o.Res) (step : exec fails task o s = some (s', r)) (inside : s'.clock ≤ limit) :
    s.clock ≤ limit ∧ exec fails' task o s = some (s', r) := by
  cases o with
  | rmw id used =>
    simp only [exec] at step ⊢
    have earlier : s.clock < limit := by
      split_ifs at step <;> cases step
      · exact inside
      · have clock : (s.tick.rmw task id used).1.clock = s.clock + 1 :=
          congrArg clock (forget_rmw s.tick task id used)
        rw [clock] at inside
        exact inside
    rw [← agree s.clock earlier]
    exact ⟨earlier.le, step⟩
  | writeBlock blockId =>
    simp only [exec] at step ⊢
    have earlier : s.clock < limit := by
      split_ifs at step <;> cases step <;> exact inside
    rw [← agree s.clock earlier]
    exact ⟨earlier.le, step⟩
  | readBlock blockId =>
    have earlier : s.clock < limit := by
      cases step
      exact inside
    refine ⟨earlier.le, ?_⟩
    rw [← step, exec, exec, agree s.clock earlier]
  | push | readMinter | lockMinter | lockRefill | enableQuantization =>
    refine ⟨?_, step⟩
    simp only [exec] at step
    split_ifs at step <;> cases step <;> exact inside
  | returns event =>
    refine ⟨?_, step⟩
    cases step
    rcases event with (_ | _) | _ <;> exact inside
  | _ =>
    refine ⟨?_, step⟩
    cases step
    exact inside

/-! ## A look for a free id that fails -/

/-- A refill of an empty list: an error leaves the rest of the map alone, and the list tells what was
found. -/
theorem refillFastFreeList_runs_any (flag : s.hasFreeIds = true) (quiet : s.unannounced = [])
    (empty : s.fastFreeList = []) {res : Except FsmError Bool}
    (run : Runs (exec fails) task refillFastFreeList s res s') :
    ∃ list clock, (∀ error, res = .error error → s' = s.withList list clock) ∧
      ∀ found, res = .ok found → found = !list.isEmpty ∧ list.head? = s.leastFree ∧
        s' = { s.withList list clock with hasFreeIds := found } := by
  obtain ⟨held, _, step, rest⟩ := run.of_op
  simp only [exec] at step
  split_ifs at step with free
  cases step
  replace rest := rest.after rfl
  rw [show ({ s with refillLock := s.refillLock ++ [(task, ())] } : State τ).fastFreeList.isEmpty = true by
    simp [empty]] at rest
  obtain ⟨_, minter, step, -⟩ := rest.of_op
  simp only [exec] at step
  split_ifs at step with locked
  obtain ⟨list, clock, ⟨least, run'⟩ | ⟨-, error, run'⟩⟩ := refillFastFreeList_runs task fails
    (by simpa using locked) (by simpa using free) flag quiet empty
  · obtain ⟨rfl, rfl⟩ := run.unique run'
    refine ⟨list, clock, fun _ same => (by cases same), fun found same => ?_⟩
    cases same
    exact ⟨rfl, least, rfl⟩
  · obtain ⟨rfl, rfl⟩ := run.unique run'
    exact ⟨list, clock, fun _ _ => rfl, fun found same => by cases same⟩

/-- A look for a free id that fails leaves the rest of the map alone, and one that comes to nothing has
found that there is none. -/
theorem reuse_runs_any (flag : s.hasFreeIds = true) (quiet : s.unannounced = [])
    {res : Except FsmError (Option ℕ)} (run : Runs (exec fails) task reuse s res s') :
    (∀ error, res = .error error → ∃ list clock, s' = s.withList list clock) ∧
      (res = .ok none → s.leastFree = none ∧ s'.idMinter = s.idMinter) := by
  refine Runs.of_repeatUntil (fun _ s₁ => ∃ list clock, s₁ = s.withList list clock)
    (fun res s₁ => (∀ error, res = .error error → ∃ list clock, s₁ = s.withList list clock) ∧
      (res = .ok none → s.leastFree = none ∧ s₁.idMinter = s.idMinter)) ?_ run ⟨_, _, rfl⟩
  rintro _ out _ s₂ ⟨list, clock, rfl⟩ run
  -- what an iteration does with an id that it has popped
  have claimed (id : ℕ) (rest : List ℕ) (clock : ℕ)
      (run : Runs (exec fails) task (claim id) (s.withList rest clock) out s₂) :
      out.elim (fun _ => ∃ list clock, s₂ = s.withList list clock) fun res =>
        (∀ error, res = .error error → ∃ list clock, s₂ = s.withList list clock) ∧
          (res = .ok none → s.leastFree = none ∧ s₂.idMinter = s.idMinter) := by
    obtain ⟨rfl, -⟩ | ⟨rfl | ⟨error, rfl⟩, clock', rfl⟩ := claim_runs_any run
    · exact ⟨fun _ same => (by cases same), fun same => (by cases same)⟩
    · exact ⟨rest, clock', rfl⟩
    · exact ⟨fun _ _ => ⟨rest, clock', rfl⟩, fun same => (by cases same)⟩
  replace run := run.after rfl
  cases list with
  | cons id rest => exact claimed id rest clock run
  | nil =>
    obtain ⟨refilled, s₁, refill, run⟩ := run.of_bind
    obtain ⟨list, clock, failed, found⟩ := refillFastFreeList_runs_any
      (s := s.withList [] clock) flag quiet rfl refill
    rcases refilled with error | _ | _
    · obtain ⟨rfl, rfl⟩ := run.of_ret
      exact ⟨fun _ _ => ⟨list, clock, failed error rfl⟩, fun same => (by cases same)⟩
    · obtain ⟨rfl, rfl⟩ := run.of_ret
      obtain ⟨empty, least, rfl⟩ := found false rfl
      refine ⟨fun _ same => (by cases same), fun _ => ⟨?_, rfl⟩⟩
      have none_found : list = [] := by simpa using empty.symm
      exact least.symm.trans (by rw [none_found, head?_nil])
    · obtain ⟨some_found, least, rfl⟩ := found true rfl
      replace run := run.after rfl
      cases list with
      | nil => cases some_found
      | cons id rest =>
        have same : ({ (s.withList [] clock).withList rest clock with hasFreeIds := true } : State τ) =
            s.withList rest clock := by
          rw [← flag]
          rfl
        apply claimed id rest clock
        rw [← same]
        exact run

/-! ## A mint that fails -/

/-- The counter is at its limit, where a mint panics. -/
theorem not_mint_runs {res : Except FsmError ℕ} (limit : s.idMinter.nextId = u32Max) :
    ¬ Runs (exec fails) task mint s res s' := by
  intro run
  obtain ⟨_, minter, step, run⟩ := run.of_op
  simp only [exec] at step
  split_ifs at step
  cases step
  rw [if_pos limit] at run
  exact not_runs_panic run

/-- Where the next callback fails, no block is written. -/
theorem expandTo_runs_failed (task : τ) (minter : IdMinter) (id : ℕ) (fault : fails s.clock = true) :
    (∃ error clock, Runs (exec fails) task (expandTo minter id) s (.error error) { s with clock }) ∨
      Runs (exec fails) task (expandTo minter id) s (.ok ()) s := by
  have write : exec fails task (.writeBlock (id / blockSizeIds)) s = some (s.tick, false) := if_pos fault
  rw [expandTo, indexesForId]
  dsimp only
  by_cases grows : minter.maxBlock = u32Max ∨ id / blockSizeIds = minter.maxBlock + 1
  · rw [if_pos grows]
    exact .inl ⟨_, s.clock + 1, .op write (.ret _ _)⟩
  · rw [if_neg grows]
    split_ifs
    · exact .inl ⟨_, s.clock, .ret _ _⟩
    · exact .inr (.ret _ _)

/-- Where the next callback fails, so does a mint, and the counter stays moved on. -/
theorem mint_runs_failed (task : τ) (unlocked : s.minterLock = none) (small : s.idMinter.nextId ≠ u32Max)
    (fault : fails s.clock = true) : ∃ error clock, Runs (exec fails) task mint s (.error error)
      { s with clock, idMinter := ⟨s.idMinter.nextId + 1, s.idMinter.maxBlock⟩ } := by
  have lock : exec fails task .lockMinter s =
      some ({ s with minterLock := some s.idMinter.nextId }, s.idMinter) :=
    if_neg (by simp [unlocked])
  let bumped : State τ :=
    { s with
      minterLock := some s.idMinter.nextId
      idMinter := ⟨s.idMinter.nextId + 1, s.idMinter.maxBlock⟩ }
  have mark : exec fails task (.rmw s.idMinter.nextId true) bumped = some (bumped.tick, none) :=
    if_pos fault
  obtain ⟨error, clock, failed⟩ | expanded := expandTo_runs_failed (s := bumped) task s.idMinter
    s.idMinter.nextId fault
  · refine ⟨error, clock, .op lock ?_⟩
    rw [if_neg small]
    refine .op rfl (failed.bind (.op rfl (runs_ret_iff.mpr ⟨rfl, ?_⟩)))
    simp only [bumped, unlocked]
  · have marked : Runs (exec fails) task (markIdUnchecked s.idMinter.nextId true) bumped
        (.error (.garnet .write)) bumped.tick := .op mark (.ret _ _)
    refine ⟨.garnet .write, s.clock + 1, .op lock ?_⟩
    rw [if_neg small]
    refine .op rfl (expanded.bind (marked.bind (.op rfl (runs_ret_iff.mpr ⟨rfl, ?_⟩))))
    simp only [bumped, tick, unlocked]

theorem mintGuarded_runs_failed (fails : ℕ → Bool) (task : τ) (barrier : Barrier)
    (unlocked : s.minterLock = none) (small : s.idMinter.nextId ≠ u32Max) (fault : fails s.clock = true) :
    ∃ error clock readers, Runs (exec fails) task (mintGuarded barrier) s (.error error)
      { s with clock, readers, idMinter := ⟨s.idMinter.nextId + 1, s.idMinter.maxBlock⟩ } := by
  obtain ⟨error, clock, minted⟩ := mint_runs_failed task unlocked small fault
  exact ⟨error, clock, _, minted.bind (.op rfl (.ret _ _))⟩

/-! ## `next_id` -/

/-- There is a free id that `next_id` looks for. -/
def State.CanReuse (s : State τ) : Prop :=
  s.reuseEnabled = true ∧ s.hasFreeIds = true ∧
    ∃ id < s.idMinter.nextId, id / blockSizeIds ≤ s.idMinter.maxBlock ∧ s.used id = false

omit [DecidableEq τ] in
theorem State.CanReuse.leastFree_ne_none (reuse : s.CanReuse) : s.leastFree ≠ none := by
  obtain ⟨-, -, id, below, block, free⟩ := reuse
  intro absent
  have inside : id < s.scanned :=
    (Nat.div_lt_iff_lt_mul (by decide)).mp (Nat.lt_succ_of_le block)
  cases free.symm.trans (leastFree_eq_none.mp absent id inside below)

omit [DecidableEq τ] in
theorem State.reuses_eq_none_iff (searchable : s.hasFreeIds = true → s.Searchable) :
    s.reuses = none ↔ ¬ s.CanReuse := by
  rw [reuses]
  split_ifs with looks
  · rw [reusable, Option.or_eq_none_iff]
    constructor
    · rintro ⟨-, absent⟩ reuse
      exact reuse.leastFree_ne_none absent
    · intro absent
      constructor
      · refine find?_eq_none.mpr fun id listed clear => absent ?_
        obtain ⟨below, block⟩ := (searchable looks.2).listed id listed
        exact ⟨looks.1, looks.2, id, below, block, by simpa using clear⟩
      · by_contra found
        obtain ⟨id, least⟩ := Option.ne_none_iff_exists'.mp found
        have inside := mem_range'_1.mp (mem_of_find?_eq_some least)
        obtain ⟨below, free⟩ := leastFree_spec least
        exact absent ⟨looks.1, looks.2, id, below, Nat.le_of_lt_succ
          ((Nat.div_lt_iff_lt_mul (by decide)).mpr (by simpa [scanned] using inside.2)), free⟩
  · exact ⟨fun _ reuse => looks ⟨reuse.1, reuse.2.1⟩, fun _ => rfl⟩

/-- A call that fails has left the map alone but for its list, or it had nothing to reuse and came to
the mint. -/
theorem nextId_runs_error (quiet : s.unannounced = []) {error : FsmError}
    (run : Runs (exec fails) task nextId s (.error error) s') :
    (∃ list clock readers, s' = { s.withList list clock with readers }) ∨
      ¬ s.CanReuse ∧ ∃ middle res s₁, Runs (exec fails) task mint middle res s₁ ∧
        middle.idMinter = s.idMinter := by
  have minting (middle : State τ) (same : middle.idMinter = s.idMinter)
      (run : Runs (exec fails) task (mintGuarded s.barrier) middle (.error error) s') :
      ∃ middle res s₁, Runs (exec fails) task mint middle res s₁ ∧ middle.idMinter = s.idMinter := by
    obtain ⟨res, s₁, minted, -⟩ := run.of_bind
    exact ⟨middle, res, s₁, minted, same⟩
  have run := nextId_runs_iff.mp run
  split_ifs at run with looks
  · obtain ⟨looked, s₁, look, run⟩ := run.of_bind
    obtain ⟨failed, nothing⟩ := reuse_runs_any (s := s.enter task) looks.2 quiet look
    rcases looked with error' | _ | id
    · obtain ⟨list, clock, rfl⟩ := failed error' rfl
      replace run := run.after rfl
      obtain ⟨-, rfl⟩ := run.of_ret
      exact .inl ⟨list, clock, _, rfl⟩
    · obtain ⟨absent, same⟩ := nothing rfl
      have none_free (reuse : s.CanReuse) : False := reuse.leastFree_ne_none absent
      exact .inr ⟨none_free, minting s₁ same run⟩
    · cases run.of_ret.1
  · exact .inr ⟨fun reuse => looks ⟨reuse.1, reuse.2.1⟩, minting (s.enter task) rfl run⟩

/-- A call that does not look for a free id and has no callback that succeeds. -/
theorem nextId_runs_unminted (task : τ) (unlocked : s.minterLock = none)
    (off : ¬ (s.reuseEnabled = true ∧ s.hasFreeIds = true)) (small : s.idMinter.nextId ≠ u32Max) :
    ∃ error clock readers, Runs (exec fun _ => true) task nextId s (.error error)
      { s with clock, readers, idMinter := ⟨s.idMinter.nextId + 1, s.idMinter.maxBlock⟩ } := by
  obtain ⟨error, clock, readers, minted⟩ := mintGuarded_runs_failed (fun _ => true) task s.barrier
    (s := s.enter task) unlocked small rfl
  refine ⟨error, clock, readers, nextId_runs_iff.mpr ?_⟩
  rw [if_neg off]
  exact minted

/-- With nothing to reuse, some callbacks can fail such that the counter moves on for nothing. -/
theorem nextId_runs_failed (task : τ) (unlocked : s.minterLock = none)
    (searchable : s.hasFreeIds = true → s.Searchable) (absent : s.reuses = none)
    (small : s.idMinter.nextId ≠ u32Max) :
    ∃ fails error s', Runs (exec fails) task nextId s (.error error) s' ∧
      s'.idMinter.nextId = s.idMinter.nextId + 1 := by
  rw [reuses] at absent
  split_ifs at absent with looks
  · obtain ⟨list, clock, run⟩ := reuse_runs task (s := s.enter task) { searchable looks.2 with }
    rw [show (s.enter task).reusable = none from absent] at run
    -- the callbacks from here on fail
    have look : Runs (exec fun n => decide (clock ≤ n)) task reuse (s.enter task) (.ok none)
        ((s.enter task).afterSearch task list clock none) :=
      (Runs.inside (fun s => s.clock ≤ clock)
        (exec_inside fun n before => (decide_eq_false before.not_ge).symm) run le_rfl).2
    obtain ⟨error, clock', readers, minted⟩ := mintGuarded_runs_failed (fun n => decide (clock ≤ n)) task
      s.barrier (s := (s.enter task).afterSearch task list clock none) unlocked small
      (decide_eq_true le_rfl)
    refine ⟨fun n => decide (clock ≤ n), error, ?_⟩
    simp only [nextId_runs_iff, if_pos looks]
    exact ⟨_, look.bind minted, rfl⟩
  · obtain ⟨error, clock, readers, run⟩ := nextId_runs_unminted task unlocked looks small
    exact ⟨fun _ => true, error, _, run, rfl⟩

/-! ## Runs -/

/-- A call on the map. -/
inductive MapCall
  | request (request : Request)
  | enableReuse
  | enableQuantization

def MapCall.code : MapCall → Code Unit
  | .request asked => asked.code
  | .enableReuse => access .enableReuse
  | .enableQuantization => access .enableQuantization

def callAll : List MapCall → Code Unit
  | [] => pure ()
  | first :: rest => do
      first.code
      callAll rest

theorem callAll_wp {reliable : Prop} {token : Token} (calls : List MapCall) (calm : token.Calm none none) :
    (protocol reliable).wp token (callAll calls) fun token' _ => token'.Calm none none := by
  induction calls generalizing token with
  | nil => exact Protocol.wp_ret calm
  | cons first rest ih =>
    apply Protocol.wp_bind
    cases first with
    | request asked => exact Protocol.wp_mono (asked.code_wp calm) fun _ _ calm => ih calm
    | enableReuse | enableQuantization =>
      refine Protocol.wp_op_iff.mpr ⟨trivial, ?_⟩
      rintro _ _ rfl
      exact ih calm

/-- One of the tasks has called `next_id`, and it failed. -/
def Failed (idle : τ → Prop) (s s' : State τ) : Prop :=
  ∃ task fails error, idle task ∧ Runs (exec fails) task nextId s (.error error) s'

/-- A call that fails only touches the list, or it had nothing to reuse and came to a mint. -/
theorem Failed.outcome {idle : τ → Prop} (failed : Failed idle s s') :
    (∃ list clock, s'.forget = (s.withList list clock).forget) ∨
      ¬ s.CanReuse ∧ s.idMinter.nextId ≠ u32Max := by
  obtain ⟨task, fails, error, -, run⟩ := failed
  obtain ⟨t, run, alike⟩ := nextId_runs_forget (t := s.forget) run rfl
  obtain ⟨list, clock, readers, rfl⟩ | ⟨absent, middle, res, t₁, minted, same⟩ :=
    nextId_runs_error rfl run
  · exact .inl ⟨list, clock, alike⟩
  · refine .inr ⟨absent, fun limit => not_mint_runs ?_ minted⟩
    rw [same]
    exact limit

/-- With callbacks that succeed, `next_id` returns an id. -/
def State.Serves (task : τ) (s : State τ) : Prop :=
  ∃ guard s', Runs (exec fun _ => false) task nextId s (.ok guard) s'

/-- Calls of `next_id` that fail change nothing, and keep no later call from success. -/
structure State.FailsCleanly (idle : τ → Prop) (s : State τ) : Prop where
  unchanged : ∀ s', Failed idle s s' →
    s'.idMinter = s.idMinter ∧ s'.totalUsed = s.totalUsed ∧ ∀ id, s'.used id = s.used id
  recovers : ∀ s' task, Relation.ReflTransGen (Failed idle) s s' → idle task →
    s.Serves task → s'.Serves task

/-- The locks of the map are free, and the tasks that call are between two calls. -/
structure State.Open (idle : τ → Prop) (s : State τ) : Prop where
  explained : ∃ tokens, Inv False s tokens ∧ ∀ task, idle task → (tokens task).Calm none none
  unlocked : s.minterLock = none
  refill : s.refillLock = []

namespace State.Open

variable {idle : τ → Prop} (opened : s.Open idle)
include opened

omit [DecidableEq τ] in
theorem searchable (flag : s.hasFreeIds = true) : s.forget.Searchable where
  unlocked := opened.unlocked
  refill := opened.refill
  settled := rfl
  quiet := rfl
  flag
  stored := by
    obtain ⟨tokens, inv, -⟩ := opened.explained
    exact inv.sound.stored
  listed := fun id mem => by
    obtain ⟨tokens, inv, -⟩ := opened.explained
    have covers := inv.sound.listed id mem
    rwa [Covers, counter_of_unlocked opened.unlocked] at covers

/-- A call that fails although there is an id to reuse has only touched the list. -/
theorem failed (reuse : s.CanReuse) (failed : Failed idle s s') :
    s'.Open idle ∧ s'.CanReuse := by
  obtain ⟨list, clock, alike⟩ | ⟨absent, -⟩ := failed.outcome
  · obtain ⟨task, fails, error, isIdle, run⟩ := failed
    obtain ⟨tokens, inv, calm⟩ := opened.explained
    obtain ⟨token', calm', inv'⟩ := (protocol_sound False.elim).runs inv (nextId_wp (calm task isIdle)) run
    refine ⟨⟨⟨_, inv', fun other otherIdle => ?_⟩, ?_, ?_⟩, ?_⟩
    · by_cases here : other = task
      · rw [here, update_self]
        exact calm'
      · rw [update_of_ne here]
        exact calm other otherIdle
    · exact (congrArg minterLock alike).trans opened.unlocked
    · exact (congrArg refillLock alike).trans opened.refill
    · have same : s'.forget.CanReuse := by
        rw [alike]
        exact reuse
      exact same
  · exact absurd reuse absent

theorem serves (reuse : s.CanReuse) (task : τ) : s.Serves task := by
  have some_found : s.forget.reuses ≠ none := fun absent =>
    (reuses_eq_none_iff opened.searchable).mp absent reuse
  obtain ⟨id, found⟩ := Option.ne_none_iff_exists'.mp some_found
  obtain ⟨list, clock, run⟩ := nextId_runs_reuse task opened.searchable found
  obtain ⟨s', run, -⟩ := nextId_runs_forget (t := s) run rfl
  exact ⟨_, s', run⟩

/-- At its limit the counter serves nobody. -/
theorem not_serves (absent : ¬ s.CanReuse) (limit : s.idMinter.nextId = u32Max)
    (task : τ) : ¬ s.Serves task := by
  rintro ⟨guard, s', run⟩
  obtain ⟨t, run, -⟩ := nextId_runs_forget (t := s.forget) run rfl
  have none_found : s.forget.reuses = none := (reuses_eq_none_iff opened.searchable).mpr absent
  obtain ⟨clock, run_iff⟩ := nextId_runs_mint_iff task opened.searchable none_found
  obtain ⟨res, t₁, minted, -⟩ := runs_bind_iff.mp ((run_iff _ _).mp run)
  refine not_mint_runs ?_ minted
  rw [← limit, searched]
  split_ifs <;> rfl

/-- Calls fail without harm exactly if there is an id to reuse, or the counter is at its limit. -/
theorem failsCleanly_iff {task : τ} (isIdle : idle task) :
    s.FailsCleanly idle ↔ s.CanReuse ∨ s.idMinter.nextId = u32Max := by
  constructor
  · intro clean
    by_contra neither
    obtain ⟨absent, small⟩ := not_or.mp neither
    obtain ⟨fails, error, t, run, moved⟩ := nextId_runs_failed task (s := s.forget) opened.unlocked
      opened.searchable ((reuses_eq_none_iff opened.searchable).mpr absent) small
    obtain ⟨s', run, alike⟩ := nextId_runs_forget (t := s) run rfl
    have counter : s'.idMinter = s.idMinter := (clean.unchanged s' ⟨task, fails, error, isIdle, run⟩).1
    have same : t.idMinter = s'.idMinter := (congrArg idMinter alike :)
    rw [same, counter] at moved
    exact absurd moved (Nat.lt_succ_self _).ne
  · intro condition
    constructor
    · intro s' failed
      obtain ⟨list, clock, alike⟩ | ⟨absent, small⟩ := failed.outcome
      · have blocks : s'.blocks = s.blocks := (congrArg blocks alike :)
        refine ⟨(congrArg idMinter alike :), (congrArg totalUsed alike :), fun id => ?_⟩
        rw [used, used, blocks]
      · exact absurd condition (not_or.mpr ⟨absent, small⟩)
    · intro s' other calls otherIdle serves
      by_cases reuse : s.CanReuse
      · have kept : s'.Open idle ∧ s'.CanReuse := by
          induction calls with
          | refl => exact ⟨opened, reuse⟩
          | tail _ failed ih => exact ih.1.failed ih.2 failed
        exact kept.1.serves kept.2 other
      · exact absurd serves (opened.not_serves reuse (condition.resolve_left reuse) other)

end State.Open

/-- Whatever calls have led to a state in which the locks are free, calls of `next_id` by idle tasks fail
without harm exactly if there is an id to reuse, or the counter is at its limit. -/
theorem nextId_failsCleanly_iff {fails : ℕ → Bool} {calls : τ → List MapCall}
    {c : Config interface Panic τ (State τ)} (opened : Opened fails s)
    (reachable : Config.Reachable (exec fails) ⟨s, fun task => callAll (calls task)⟩ c)
    (unlocked : c.shared.minterLock = none) (refill : c.shared.refillLock = []) (task : τ)
    (done : c.Done task) :
    c.shared.FailsCleanly c.Done ↔ c.shared.CanReuse ∨ c.shared.idMinter.nextId = u32Max := by
  obtain ⟨sound, rest⟩ := opened.sound False
  obtain ⟨tokens, explains⟩ := (protocol_sound False.elim).reachable
    ⟨_, .of_rest sound rest, fun task => callAll_wp (calls task) Token.fresh_calm⟩ reachable
  have isOpen : c.shared.Open c.Done :=
    ⟨⟨tokens, explains.1, fun task done => explains.done done⟩, unlocked, refill⟩
  exact isOpen.failsCleanly_iff done

/-- Id 0 has been returned and freed again, so it can be reused. -/
theorem nextId_failsCleanly_freed :
    ∃ (s : State Unit) (c : Config interface Panic Unit (State Unit)),
      new Unit (fun _ => false) (fun _ => none) false true = .ok s ∧
      Config.Reachable (exec fun _ => false)
        ⟨s, fun _ => callAll [.request .nextId, .request (.markFree 0)]⟩ c ∧ c.shared.FailsCleanly c.Done := by
  have reachable := Config.Reachable.of_run (exec fun _ => false)
    ⟨State.over Unit (update (fun _ => none) 0 (some Block.zero)) 2 ⟨-1, 0, [], 0⟩ 0
      false true, fun _ => callAll [.request .nextId, .request (.markFree 0)]⟩
    (replicate 16 ()) rfl
  refine ⟨_, _, rfl, reachable, (nextId_failsCleanly_iff (.empty false true rfl) reachable rfl rfl
    () rfl).mpr (.inl ⟨rfl, rfl, 0, ?_, ?_, ?_⟩)⟩
  · decide +kernel
  · decide +kernel
  · decide +kernel

/-! ## Calls that fail too often -/

/-- One failed mint after the other moves the counter on, and nothing else. -/
theorem failed_mints (task : τ) (n : ℕ) (unlocked : s.minterLock = none)
    (off : ¬ (s.reuseEnabled = true ∧ s.hasFreeIds = true)) (room : s.idMinter.nextId + n ≤ u32Max) :
    ∃ clock readers, Relation.ReflTransGen (Failed fun _ => True) s
      { s with clock, readers, idMinter := ⟨s.idMinter.nextId + n, s.idMinter.maxBlock⟩ } := by
  induction n with
  | zero => exact ⟨s.clock, s.readers, .refl⟩
  | succ n ih =>
    obtain ⟨clock, readers, calls⟩ := ih (by omega)
    obtain ⟨error, clock', readers', run⟩ := nextId_runs_unminted task
      (s := { s with clock, readers, idMinter := ⟨s.idMinter.nextId + n, s.idMinter.maxBlock⟩ })
      unlocked off (by rw [u32Max] at room ⊢; dsimp only; omega)
    exact ⟨clock', readers', calls.tail ⟨task, _, error, trivial, run⟩⟩

/-- Beyond the block that comes next, no id can be minted. -/
theorem not_serves_beyond (task : τ) (off : ¬ (s.reuseEnabled = true ∧ s.hasFreeIds = true))
    (mapped : s.idMinter.maxBlock ≠ u32Max)
    (beyond : s.idMinter.maxBlock + 1 < s.idMinter.nextId / blockSizeIds) : ¬ s.Serves task := by
  rintro ⟨guard, s', run⟩
  rw [nextId_runs_iff, if_neg off] at run
  change Runs _ task (mintGuarded s.barrier) (s.enter task) _ s' at run
  obtain ⟨res, s₁, minted, run⟩ := run.of_bind
  cases res with
  | error error =>
    obtain ⟨_, _, _, run⟩ := run.of_op
    cases run.of_ret.1
  | ok id => exact not_or.mpr ⟨mapped, beyond.not_ge⟩ (mint_runs_ok minted).block

/-- A new map, and as many calls as there are ids in two blocks, with callbacks that fail: the counter has
moved on, and no call succeeds any more, though all callbacks do. -/
theorem nextId_fails_for_good :
    ∃ s s' : State Unit, new Unit (fun _ => false) (fun _ => none) false true = .ok s ∧ s.Serves () ∧
      Relation.ReflTransGen (Failed fun _ => True) s s' ∧ s.idMinter = ⟨0, 0⟩ ∧
      s'.idMinter = ⟨2 * blockSizeIds, 0⟩ ∧ ¬ s'.Serves () := by
  have off : ¬ (true = true ∧ false = true) := by decide
  obtain ⟨clock, readers, calls⟩ := failed_mints () (2 * blockSizeIds)
    (s := State.over Unit (update (fun _ => none) 0 (some Block.zero)) 2 ⟨-1, 0, [], 0⟩ 0 false true)
    rfl off (by decide)
  have mapped : (0 : ℕ) ≠ u32Max := by decide
  have beyond : 0 + 1 < (0 + 2 * blockSizeIds) / blockSizeIds := by decide
  have serves := Runs.get_evaluate (exec fun _ => false) () 30 nextId (State.over Unit
    (update (fun _ => none) 0 (some Block.zero)) 2 ⟨-1, 0, [], 0⟩ 0 false true) rfl
  exact ⟨_, _, rfl, ⟨_, _, serves⟩, calls, rfl, rfl, not_serves_beyond () off mapped beyond⟩

end DiskAnn.Garnet.Fsm
