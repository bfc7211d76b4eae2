import DiskAnn.Garnet.IdMaps

/-! # A `set_element` that fails

On an error `set_element` marks its id free and leaves everything else as it is. The two maps are written
last, the external id of the internal one first: if the second of these writes fails, the id that is
given back keeps its external id.
-/

namespace DiskAnn.Garnet

open Machine Prog Function Semantics Fsm

/-! ## Giving an id back -/

namespace Fsm

variable {τ : Type} [DecidableEq τ] {s s' : State τ} {task : τ} {fails : ℕ → Bool}

def Op.clearsBit : Op → Bool
  | .rmw _ used => !used
  | _ => false

/-- The read-modify-write of `mark_free` succeeds. -/
def Frees (fails : ℕ → Bool) (_ : τ) (o : Op) (s : State τ) : Prop :=
  o.clearsBit = true → fails s.clock = false

instance (fails : ℕ → Bool) (task : τ) (o : Op) (s : State τ) : Decidable (Frees fails task o s) :=
  inferInstanceAs (Decidable (_ → _))

/-- `mark_free` of an id that is in use. -/
theorem markFree_runs_freed {id : ℕ} {res : Except FsmError Unit} (took : s.Took id)
    (run : Runs ((exec fails).when (Frees fails)) task (markFree id) s res s') :
    s'.freed = update s.freed id (s.freed id + 1) := by
  rw [markFree, monad_bind_eq, runs_bind_iff] at run
  obtain ⟨marked, s₁, mark, run⟩ := run
  obtain ⟨-, _, minter, step, mark⟩ := runs_when_op_iff.mp mark
  simp only [exec] at step
  split_ifs at step
  cases step
  rw [if_neg took.below.not_ge] at mark
  obtain ⟨works, _, out, step, mark⟩ := runs_when_op_iff.mp mark
  simp only [exec] at step
  rw [works rfl] at step
  cases step
  have set : s.tick.used id ≠ false := by
    rw [show s.tick.used id = true from took.used]
    exact Bool.true_eq_false_eq_False
  rw [State.rmw_changed, bne_iff_ne.mpr set, State.rmw_of_ne set] at mark
  obtain ⟨-, _, _, counted, mark⟩ := runs_when_op_iff.mp mark
  cases counted
  obtain ⟨-, _, room, pushed, mark⟩ := runs_when_op_iff.mp mark
  obtain ⟨-, _, _, flagged, mark⟩ := runs_when_op_iff.mp mark
  cases flagged
  obtain ⟨rfl, rfl⟩ := mark.of_ret
  obtain ⟨-, rfl⟩ := run.of_ret
  simp only [exec] at pushed
  split_ifs at pushed <;> cases pushed <;> rfl

end Fsm

namespace Provider

variable {τ V Q E : Type} [DecidableEq τ] [DecidableEq E] {maxDegree : ℕ} {settings : Settings V Q}
  {fails : ℕ → Bool} {task : τ} {s s' : State τ V Q E maxDegree} {external : E} {element : V}
  {error : GarnetProviderError} {α : Type} {id : ℕ} {s₁ : State τ V Q E maxDegree}

def Op.clearsBit : Op V Q E maxDegree → Bool
  | .fsm o => o.clearsBit
  | _ => false

/-- The read-modify-write of `mark_free` succeeds. -/
def Frees (fails : ℕ → Bool) (_ : τ) (o : Op V Q E maxDegree) (s : State τ V Q E maxDegree) : Prop :=
  o.clearsBit = true → fails s.fsm.clock = false

instance (fails : ℕ → Bool) (task : τ) (o : Op V Q E maxDegree) (s : State τ V Q E maxDegree) :
    Decidable (Frees fails task o s) :=
  inferInstanceAs (Decidable (_ → _))

/-- The operations, with every `mark_free` that succeeds. -/
abbrev freeing (settings : Settings V Q) (fails : ℕ → Bool) :
    Semantics (interface V Q E maxDegree) τ (State τ V Q E maxDegree) :=
  (exec settings fails).when (Frees fails)

theorem of_fsm_runs_freeing {code : Fsm.Code α} {value : α}
    (run : Runs (freeing settings fails) task (fsm code) s value s') :
    Runs ((Fsm.exec fails).when (Fsm.Frees fails)) task code s.fsm value s'.fsm ∧ s.Same s' := by
  refine Runs.of_lift State.fsm State.Same .refl .trans (fun s s' o r step => ?_) run
  obtain ⟨works, step⟩ := when_eq_some.mp step
  obtain ⟨step, same⟩ := fsm_step settings o step
  exact ⟨when_eq_some.mpr ⟨works, step⟩, same⟩

variable (guard : Fsm.ReuseGuard)

/-- How `set_element` ends when its closure fails. -/
def giveBack (failure : GarnetProviderError) :
    Code V Q E maxDegree (Except GarnetProviderError ℕ) := do
  match ← fsm (Fsm.markFree guard.id) with
  | .error failure => do
      dropGuard guard
      pure (.error (.fsm failure))
  | .ok () => do
      dropGuard guard
      pure (.error failure)

omit [DecidableEq τ] [DecidableEq E] in
/-- A `set_element` fails to get an id, or gives it back. -/
theorem setElement_runs_error_iff {sem : Semantics (interface V Q E maxDegree) τ (State τ V Q E maxDegree)} :
    Runs sem task (setElement settings external element) s (.error error) s' ↔
      (∃ failure, error = .fsm failure ∧ Runs sem task (fsm nextId) s (.error failure) s') ∨
      ∃ guard s₁ s₂ failure s₃, Runs sem task (fsm nextId) s (.ok guard) s₁ ∧
        Runs sem task (noteReady settings guard) s₁ () s₂ ∧
        Runs sem task (insert settings guard external element) s₂ (.error failure) s₃ ∧
        Runs sem task (giveBack guard failure) s₃ (.error error) s' := by
  constructor
  · intro run
    rw [setElement, monad_bind_eq, runs_bind_iff] at run
    obtain ⟨taken, s₁, first, run⟩ := run
    cases taken with
    | error failure =>
      obtain ⟨same, rfl⟩ := run.of_ret
      exact .inl ⟨failure, Except.error.inj same, first⟩
    | ok guard =>
      obtain ⟨_, s₂, noted, run⟩ := run.of_bind
      obtain ⟨res, s₃, inserted, run⟩ := run.of_bind
      cases res with
      | error failure => exact .inr ⟨guard, s₁, s₂, failure, s₃, first, noted, inserted, run⟩
      | ok =>
        obtain ⟨_, s₄, _, run⟩ := run.of_bind
        cases run.of_ret.1
  · rintro (⟨failure, rfl, first⟩ | ⟨guard, s₁, s₂, failure, s₃, first, noted, inserted, back⟩)
    · exact first.bind (.ret _ _)
    · exact first.bind (noted.bind (inserted.bind back))

theorem giveBack_runs {guard : Fsm.ReuseGuard} {failure : GarnetProviderError} (took : s.fsm.Took guard.id)
    (run : Runs (freeing settings fails) task (giveBack guard failure) s (.error error) s') :
    s'.extMap = s.extMap ∧ s'.intMap = s.intMap ∧
      s'.fsm.freed = update s.fsm.freed guard.id (s.fsm.freed guard.id + 1) := by
  rw [giveBack, monad_bind_eq, runs_bind_iff] at run
  obtain ⟨out, s₁, freed, run⟩ := run
  obtain ⟨freed, same⟩ := of_fsm_runs_freeing freed
  have history := Fsm.markFree_runs_freed took freed
  have dropped : s' = s₁.dropped task guard.id := by
    cases out <;>
    · obtain ⟨_, s₂, dropped, run⟩ := run.of_bind
      obtain ⟨-, rfl⟩ := run.of_ret
      exact dropGuard_runs_iff.mp dropped.of_when
  rw [dropped]
  refine ⟨?_, ?_, history⟩
  · rw [State.dropped, same]
  · rw [State.dropped, same]

/-! ## Harm -/

def Op.writesIntMap : Op V Q E maxDegree → Bool
  | .writeIntMap _ _ => true
  | _ => false

/-- The id whose vector is written. -/
def Op.fills : Op V Q E maxDegree → Option ℕ
  | .writeVector id _ => some id
  | _ => none

/-- The write of the internal id succeeds, and the id that is taken has no external id. -/
def Harmless (fails : ℕ → Bool) (_ : τ) (o : Op V Q E maxDegree) (s : State τ V Q E maxDegree) : Prop :=
  (o.writesIntMap = true → fails s.fsm.clock = false) ∧ o.fills.bind s.extMap = none

instance (fails : ℕ → Bool) (task : τ) (o : Op V Q E maxDegree) (s : State τ V Q E maxDegree) :
    Decidable (Harmless fails task o s) :=
  inferInstanceAs (Decidable (_ ∧ _))

/-- What a part of `set_element` that fails leaves of the maps, and whether it was harmless. -/
def Left (external : E) (id : ℕ) (s s' : State τ V Q E maxDegree) (harmless : Prop) : Prop :=
  s'.intMap = s.intMap ∧ (s'.extMap = s.extMap ∧ harmless ∨
    s'.extMap = update s.extMap id (some external) ∧ ¬ harmless)

/-- An operation before it that leaves the maps alone. -/
theorem Left.op {o : Op V Q E maxDegree} {rest : o.Res → Code V Q E maxDegree α} {r : o.Res}
    {value : α} (fine : Harmless fails task o s)
    (step : freeing settings fails task o s = some (s₁, r)) (inside : s₁.intMap = s.intMap)
    (outside : s₁.extMap = s.extMap)
    (left : Left external id s₁ s' (Runs ((freeing settings fails).when (Harmless fails)) task (rest r) s₁
      value s')) :
    Left external id s s' (Runs ((freeing settings fails).when (Harmless fails)) task
      (access o >>= rest) s value s') := by
  rw [runs_when_op_iff_of_eq step, and_iff_right fine]
  rw [Left, inside, outside] at left
  exact left

theorem Left.ret (value : α) : Left external id s s
    (Runs ((freeing settings fails).when (Harmless fails)) task (.ret value : Code V Q E maxDegree α) s value
      s) :=
  ⟨rfl, .inl ⟨rfl, .ret value s⟩⟩

theorem insertMaps_runs_error
    (run : Runs (freeing settings fails) task (insertMaps id external) s (.error error) s') :
    Left external id s s' (Runs ((freeing settings fails).when (Harmless fails)) task
      (insertMaps id external) s (.error error) s') := by
  obtain ⟨s₁, written, step, run⟩ := run.of_op
  have fine : Harmless fails task (.writeExtMap id external) s :=
    ⟨fun writes => (by cases writes), rfl⟩
  have outside : callback fails s (fun s => (s.setExternal id (some external), true)) =
      some (s₁, written) := (when_eq_some.mp step).2
  obtain ⟨-, rfl, rfl⟩ | ⟨-, rfl, rfl⟩ := callback_cases outside
  · obtain ⟨⟨⟩, rfl⟩ := run.of_ret
    exact .op fine step rfl rfl (.ret _)
  · rw [insertMaps, runs_when_op_iff_of_eq step]
    obtain ⟨s₂, written, step, run⟩ := run.of_op
    have inside : callback fails (s.tick.setExternal id (some external))
        (fun s => ((s.setInternal external (some id)).release task id, true)) = some (s₂, written) :=
      (when_eq_some.mp step).2
    obtain ⟨fault, rfl, rfl⟩ | ⟨-, rfl, rfl⟩ := callback_cases inside
    · obtain ⟨-, rfl⟩ := run.of_ret
      refine ⟨rfl, .inr ⟨rfl, fun harmless => ?_⟩⟩
      have works := (runs_when_op_iff.mp harmless.2).1.1 rfl
      cases works.symm.trans fault
    · cases run.of_ret.1

omit [DecidableEq τ] [DecidableEq E] in
/-- After the write of the vector, which asks for an id without an external one. -/
theorem Left.filled {harmless : Prop} (free : Prop) (inside : s₁.intMap = s.intMap)
    (outside : s₁.extMap = s.extMap) (left : Left external id s₁ s' harmless) :
    s'.intMap = s.intMap ∧ (s'.extMap = s.extMap ∧ (free ∧ harmless ↔ free) ∨
      s'.extMap = update s.extMap id (some external) ∧ ¬ (free ∧ harmless)) := by
  rw [Left, inside, outside] at left
  exact left.imp_right (Or.imp (And.imp_right and_iff_left) (And.imp_right fun harmful both => harmful both.2))

theorem insert_runs_error {guard : ReuseGuard}
    (run : Runs (freeing settings fails) task (insert settings guard external element) s (.error error) s') :
    s'.intMap = s.intMap ∧ (s'.extMap = s.extMap ∧
      (Runs ((freeing settings fails).when (Harmless fails)) task (insert settings guard external element) s
        (.error error) s' ↔ s.extMap guard.id = none) ∨
      s'.extMap = update s.extMap guard.id (some external) ∧
        ¬ Runs ((freeing settings fails).when (Harmless fails)) task
          (insert settings guard external element) s (.error error) s') := by
  obtain ⟨s₁, written, step, run⟩ := run.of_op
  have vector : callback fails s (fun s => (s.setVector guard.id (some element), true)) =
      some (s₁, written) := (when_eq_some.mp step).2
  have same : s₁.intMap = s.intMap ∧ s₁.extMap = s.extMap := by
    obtain ⟨-, rfl, -⟩ | ⟨-, rfl, -⟩ := callback_cases vector <;> exact ⟨rfl, rfl⟩
  have free : Harmless fails task (.writeVector guard.id element) s ↔ s.extMap guard.id = none :=
    and_iff_right fun writes => by cases writes
  rw [insert, runs_when_op_iff_of_eq step, free]
  apply Left.filled _ same.1 same.2
  obtain ⟨-, rfl, rfl⟩ | ⟨-, rfl, rfl⟩ := callback_cases vector
  · obtain ⟨⟨⟩, rfl⟩ := run.of_ret
    exact .ret _
  · rw [if_neg (show ¬ (!true) = true from Bool.false_ne_true)] at run ⊢
    split_ifs at run ⊢
    · obtain ⟨s₂, quant, step, run⟩ := run.of_op
      obtain ⟨rfl, rfl⟩ := Prod.mk.inj (Option.some.inj (when_eq_some.mp step).2)
      apply Left.op ⟨fun writes => (by cases writes), rfl⟩ step rfl rfl
      cases compressed : (s.tick.setVector guard.id (some element)).compress element with
      | none =>
        rw [compressed] at run
        obtain ⟨⟨⟩, rfl⟩ := run.of_ret
        exact .ret _
      | some quant =>
        rw [compressed] at run
        obtain ⟨s₂, written, step, run⟩ := run.of_op
        have write : callback fails (s.tick.setVector guard.id (some element))
            (fun s => (s.setQuantized guard.id (some quant), true)) = some (s₂, written) :=
          (when_eq_some.mp step).2
        obtain ⟨-, rfl, rfl⟩ | ⟨-, rfl, rfl⟩ := callback_cases write
        · obtain ⟨⟨⟩, rfl⟩ := run.of_ret
          exact .op ⟨fun writes => (by cases writes), rfl⟩ step rfl rfl (.ret _)
        · exact .op ⟨fun writes => (by cases writes), rfl⟩ step rfl rfl (insertMaps_runs_error run)
    · exact insertMaps_runs_error run

/-! ## The whole call -/

/-- It writes no vector and no internal id. -/
def Op.Neutral (o : Op V Q E maxDegree) : Prop := o.writesIntMap = false ∧ o.fills = none

omit [DecidableEq τ] [DecidableEq E] in
theorem harmless_of_neutral (o : Op V Q E maxDegree) (s : State τ V Q E maxDegree) (neutral : o.Neutral) :
    Harmless fails task o s :=
  ⟨fun writes => (by cases neutral.1.symm.trans writes), by rw [neutral.2]; rfl⟩

omit [DecidableEq E] in
theorem fsm_calls_neutral (code : Fsm.Code α) : (fsm code : Code V Q E maxDegree α).Calls Op.Neutral := by
  refine (Calls.lift code _ _ _).mono fun o lifted => ?_
  obtain ⟨p, rfl⟩ := lifted
  exact ⟨rfl, rfl⟩

omit [DecidableEq E] in
theorem noteReady_calls_neutral :
    (noteReady settings guard : Code V Q E maxDegree Unit).Calls Op.Neutral := by
  refine (noteReady_calls settings guard).mono fun o ready => ?_
  cases o with
  | fsm | isTrained | setQuantizerReady => exact ⟨rfl, rfl⟩
  | _ => exact ready.elim

omit [DecidableEq E] in
theorem giveBack_calls_neutral (failure : GarnetProviderError) :
    (giveBack guard failure : Code V Q E maxDegree _).Calls Op.Neutral := by
  refine (fsm_calls_neutral _).bind fun out => ?_
  cases out <;> exact ⟨⟨rfl, rfl⟩, fun _ => ⟨⟨rfl, rfl⟩, fun _ => trivial⟩⟩

/-- What `set_element` took is still in use when its closure fails. -/
theorem took_of_insert {guard : ReuseGuard} {failure : GarnetProviderError}
    {s₂ : State τ V Q E maxDegree}
    (first : Runs (exec settings fails) task (fsm nextId) s (.ok guard) s₁)
    (noted : Runs (exec settings fails) task (noteReady settings guard) s₁ () s₂)
    (inserted : Runs (exec settings fails) task (insert settings guard external element) s₂ (.error failure) s') :
    s'.fsm.Took guard.id ∧ s'.fsm.freed = s.fsm.freed ∧ s₂.extMap = s.extMap ∧ s₂.intMap = s.intMap := by
  obtain ⟨run, same⟩ := of_fsm_runs first
  obtain ⟨clock, kept⟩ := fsm_of_plain (insert_calls settings guard external element) inserted
  have ready := noteReady_runs noted
  have taken := nextId_runs_taken run
  have history := (nextId_runs_onlyTook run).freed
  rw [kept, ready]
  refine ⟨⟨taken.used, taken.below⟩, history, ?_, ?_⟩
  · rw [same]
  · rw [same]

/-- A call that failed has left both maps as they were, and an id that it gave back has no external
id. -/
structure Restored (s s' : State τ V Q E maxDegree) : Prop where
  inside : s'.intMap = s.intMap
  outside : s'.extMap = s.extMap
  unmapped : ∀ id, s'.fsm.freed id ≠ s.fsm.freed id → s'.extMap id = none

omit [DecidableEq τ] [DecidableEq E] in
/-- One id is given back. -/
theorem restored_iff_of_freed (inside : s'.intMap = s.intMap)
    (freed : s'.fsm.freed = update s.fsm.freed id (s.fsm.freed id + 1)) :
    Restored s s' ↔ s'.extMap = s.extMap ∧ s'.extMap id = none := by
  constructor
  · intro restored
    refine ⟨restored.outside, restored.unmapped id ?_⟩
    rw [freed, update_self]
    exact Nat.succ_ne_self _
  · rintro ⟨outside, unmapped⟩
    refine ⟨inside, outside, fun other changed => ?_⟩
    rw [freed] at changed
    obtain rfl : other = id := of_not_not fun differs => changed (update_of_ne differs _ _)
    exact unmapped

/-- A `set_element` that fails, with a `mark_free` that succeeds, restores the maps exactly if the write
of the internal id did not fail, and the id that was taken had no external id before. -/
theorem setElement_restored_iff
    (run : Runs (freeing settings fails) task (setElement settings external element) s (.error error) s') :
    Restored s s' ↔ Runs ((freeing settings fails).when (Harmless fails)) task
      (setElement settings external element) s (.error error) s' := by
  have neutral {α : Type} {code : Code V Q E maxDegree α} (calls : code.Calls Op.Neutral)
      {value : α} {s s' : State τ V Q E maxDegree} :
      Runs ((freeing settings fails).when (Harmless fails)) task code s value s' ↔
        Runs (freeing settings fails) task code s value s' :=
    runs_when_iff_of_calls harmless_of_neutral calls
  obtain ⟨failure, rfl, first⟩ | ⟨guard, s₁, s₂, failure, s₃, first, noted, inserted, back⟩ :=
    setElement_runs_error_iff.mp run
  · -- no id was handed out, so nothing was written or given back
    obtain ⟨taken, same⟩ := of_fsm_runs first.of_when
    have history := (Fsm.nextId_runs_onlyTook taken).freed
    refine iff_of_true ⟨?_, ?_, fun id changed => (changed (congrFun history id)).elim⟩
      (setElement_runs_error_iff.mpr (.inl ⟨failure, rfl, (neutral (fsm_calls_neutral _)).mpr first⟩))
    · rw [same]
    · rw [same]
  · obtain ⟨took, history, outside₂, inside₂⟩ := took_of_insert first.of_when noted.of_when inserted.of_when
    obtain ⟨outside, inside, freed⟩ := giveBack_runs took back
    -- only the closure can do harm, and the code runs one way
    have harm : Runs ((freeing settings fails).when (Harmless fails)) task
          (setElement settings external element) s (.error error) s' ↔
        Runs ((freeing settings fails).when (Harmless fails)) task
          (insert settings guard external element) s₂ (.error failure) s₃ := by
      rw [setElement_runs_error_iff]
      constructor
      · rintro (⟨failure', -, first'⟩ | ⟨guard', t₁, t₂, failure', t₃, first', noted', inserted', -⟩)
        · cases (first'.of_when.unique first).1
        · obtain ⟨⟨⟩, rfl⟩ := first'.of_when.unique first
          obtain ⟨-, rfl⟩ := noted'.of_when.unique noted
          obtain ⟨⟨⟩, rfl⟩ := inserted'.of_when.unique inserted
          exact inserted'
      · intro harmless
        exact .inr ⟨guard, s₁, s₂, failure, s₃, (neutral (fsm_calls_neutral _)).mpr first,
          (neutral (noteReady_calls_neutral guard)).mpr noted, harmless,
          (neutral (giveBack_calls_neutral guard failure)).mpr back⟩
    obtain ⟨inside₃, left⟩ := insert_runs_error inserted
    rw [restored_iff_of_freed (inside.trans (inside₃.trans inside₂)) (by rw [freed, history]), harm, outside]
    rw [outside₂] at left
    obtain ⟨outside₃, harmless⟩ | ⟨outside₃, harmful⟩ := left
    · rw [harmless, outside₃, and_iff_right rfl]
    · refine iff_of_false (fun restored => ?_) harmful
      have mapped := restored.2
      rw [outside₃, update_self] at mapped
      cases mapped

/-- The write of the external id fails. -/
theorem setElement_restored_external :
    ∃ error s', Runs (freeing plain fun n => n == 9) () (setElement plain 5 8) started (.error error) s' ∧
      s'.fsm.freed 1 = started.fsm.freed 1 + 1 ∧ Restored started s' := by
  have run : Runs (freeing plain fun n => n == 9) () (setElement plain 5 8) started _ _ :=
    Runs.get_evaluate _ () 60 _ started rfl
  have harmless : Runs ((freeing plain fun n => n == 9).when (Harmless fun n => n == 9)) ()
      (setElement plain 5 8) started _ _ := Runs.get_evaluate _ () 60 _ started rfl
  exact ⟨_, _, run, rfl, (setElement_restored_iff run).mpr harmless⟩

/-- The write of the internal id fails: the id is free again, and still has its external id. -/
theorem setElement_keeps_external :
    new Unit ℕ plain (fun _ => false) = .ok emptyIndex ∧
      Runs (exec plain fun _ => false) () (maybeSetStartPoint plain 7) emptyIndex (.ok ()) started ∧
      ∃ s', Runs (freeing plain fun n => n == 10) () (setElement plain 5 8) started
          (.error (.garnet .write)) s' ∧
        started.extMap 1 = none ∧ s'.fsm.used 1 = false ∧ s'.extMap 1 = some 5 ∧ s'.intMap 5 = none ∧
        ¬ Restored started s' := by
  have run : Runs (freeing plain fun n => n == 10) () (setElement plain 5 8) started _ _ :=
    Runs.get_evaluate _ () 60 _ started rfl
  refine ⟨rfl, started_runs, _, run, rfl, rfl, rfl, rfl, fun restored => ?_⟩
  cases congrFun restored.outside 1

end Provider

end DiskAnn.Garnet
