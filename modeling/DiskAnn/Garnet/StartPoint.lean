import DiskAnn.Garnet.ProviderSolo

/-! # Setting the start point

An attempt to set the start point takes id 0 from the free space map and writes the vector, its
quantized form and an empty adjacency row, each under its own key. A failed write leaves what was
written before, and id 0 stays taken. The next attempt reads the vector to see where it stands: with
the vector it only loads, and needs the other keys; without the vector it asks for an id again, which
has to be 0.
-/

namespace DiskAnn.Garnet.Provider

open Machine Prog Function Fsm Option

variable {τ V Q E : Type} [DecidableEq τ] [DecidableEq E] {maxDegree : ℕ} {settings : Settings V Q}
  {fails : ℕ → Bool} {task : τ} {s s' : State τ V Q E maxDegree} {point : V}

/-! ## Parts of a call -/

/-- What is left when the guard of an id is dropped. -/
def State.dropped (s : State τ V Q E maxDegree) (task : τ) (id : ℕ) : State τ V Q E maxDegree :=
  { s with
    fsm := { s.fsm.returns task (.nextId (.ok id)) with readers := s.fsm.readers.erase (task, ()) }
    held := s.held.erase (task, id) }

omit [DecidableEq E] in
theorem State.used_dropped (s : State τ V Q E maxDegree) (task : τ) (id : ℕ) :
    (s.dropped task id).fsm.used = s.fsm.used := rfl

theorem dropGuard_runs_iff {guard : ReuseGuard} {value : Unit} :
    Runs (exec settings fails) task (dropGuard guard) s value s' ↔ s' = s.dropped task guard.id := by
  refine (runs_op_iff_of_eq rfl).trans ?_
  have last (s : State τ V Q E maxDegree) : Runs (exec settings fails) task
      (access (.fsm .unlockBarrier) : Code V Q E maxDegree Unit) s ()
      { s with fsm := { s.fsm with readers := s.fsm.readers.erase (task, ()) } } :=
    .call rfl (.ret _ _)
  constructor
  · intro run
    exact (run.unique (last _)).2
  · rintro rfl
    exact last _

theorem dropGuard_runs {guard : ReuseGuard} :
    Runs (exec settings fails) task (dropGuard guard) s () (s.dropped task guard.id) :=
  dropGuard_runs_iff.mpr rfl

theorem fillCaches_runs_iff (v : V) (neighbors : List ℕ) {value : Except GarnetProviderError Unit} :
    Runs (exec settings fails) task (fillCaches v neighbors) s value s' ↔
      value = .ok () ∧ s' = { s with startPointCache := some v, neighborCache := some neighbors } := by
  refine (runs_op_iff_of_eq rfl).trans ((runs_op_iff_of_eq rfl).trans ?_)
  exact runs_ret_iff

theorem isQuantized_runs : Runs (exec settings fails) task (isQuantized settings) s
    (s.isQuantized settings) s := by
  unfold isQuantized State.isQuantized
  cases settings.quantizer with
  | none => exact .ret _ _
  | some quantizer => exact .call rfl (.ret _ _)

/-- Code outside the free space map makes callbacks, and leaves the map alone. -/
theorem fsm_of_plain {α : Type} {code : Code V Q E maxDegree α} {value : α}
    (calls : code.Calls Op.Plain) (run : Runs (exec settings fails) task code s value s') :
    ∃ clock, s'.fsm = { s.fsm with clock } := by
  refine Runs.keeps (fun s s' : State τ V Q E maxDegree => ∃ clock, s'.fsm = { s.fsm with clock })
    (fun s => ⟨s.fsm.clock, rfl⟩) ?_ (fun o s s' r plain step => ?_) calls run
  · rintro s s' s'' ⟨clock, first⟩ ⟨clock', second⟩
    exact ⟨clock', by rw [second, first]⟩
  · by_cases other : ∀ p, o ≠ .fsm p
    · obtain same | ticked := exec_fsm other step
      · exact ⟨s.fsm.clock, same⟩
      · exact ⟨s.fsm.clock + 1, ticked⟩
    · obtain ⟨p, rfl⟩ : ∃ p, o = .fsm p := by simpa using other
      cases p with
      | loadTotalUsed =>
        cases step
        exact ⟨_, rfl⟩
      | _ => exact plain.elim

theorem blocks_of_plain {α : Type} {code : Code V Q E maxDegree α} {value : α}
    (calls : code.Calls Op.Plain) (run : Runs (exec settings fails) task code s value s') :
    s'.fsm.blocks = s.fsm.blocks := by
  obtain ⟨clock, same⟩ := fsm_of_plain calls run
  rw [same]

/-- Loading a start point that Garnet has. -/
theorem loadStartPoint_runs {v : V} {value : Except GarnetProviderError Unit}
    (run : Runs (exec settings fails) task (loadStartPoint settings v) s value s') :
    s'.vectors = s.vectors ∧ (value = .ok () → s'.neighbors = s.neighbors ∧
      (∃ row, s.neighbors 0 = some row ∧ s'.neighborCache = some row.neighbors) ∧
      s'.startPointCache = some v ∧ (s.isQuantized settings = true → s.quantized 0 ≠ none)) := by
  replace run := run.after rfl
  split_ifs at run
  · obtain ⟨rfl, rfl⟩ := run.of_ret
    exact ⟨rfl, nofun⟩
  cases stored : s.neighbors 0 with
  | none =>
    rw [stored] at run
    obtain ⟨rfl, rfl⟩ := run.of_ret
    exact ⟨rfl, nofun⟩
  | some row =>
    rw [stored] at run
    replace run := isQuantized_runs.bind_iff.mp run
    cases quantized : s.isQuantized settings with
    | false =>
      rw [show s.tick.isQuantized settings = false from quantized] at run
      obtain ⟨rfl, rfl⟩ := (fillCaches_runs_iff v row.neighbors).mp run
      exact ⟨rfl, fun _ => ⟨rfl, ⟨row, rfl, rfl⟩, rfl, nofun⟩⟩
    | true =>
      rw [show s.tick.isQuantized settings = true from quantized] at run
      replace run := run.after rfl
      split_ifs at run
      · obtain ⟨rfl, rfl⟩ := run.of_ret
        exact ⟨rfl, nofun⟩
      cases present : s.quantized 0 with
      | none =>
        rw [show s.tick.quantized 0 = none from present] at run
        obtain ⟨rfl, rfl⟩ := run.of_ret
        exact ⟨rfl, nofun⟩
      | some quant =>
        rw [show s.tick.quantized 0 = some quant from present] at run
        obtain ⟨rfl, rfl⟩ := (fillCaches_runs_iff v row.neighbors).mp (run.after rfl)
        exact ⟨rfl, fun _ => ⟨rfl, ⟨row, rfl, rfl⟩, rfl, fun _ => nofun⟩⟩

theorem loadStartPoint_ok {v : V} {row : Row maxDegree} (stored : s.neighbors 0 = some row)
    (quant : s.isQuantized settings = true → s.quantized 0 ≠ none) :
    ∃ s', Runs (exec settings fun _ => false) task (loadStartPoint settings v) s (.ok ()) s' := by
  have read : exec settings (fun _ => false) task (.readNeighbors 0) s = some (s.tick, some row) :=
    congrArg (fun row => some (s.tick, row)) stored
  cases quantized : s.isQuantized settings with
  | false =>
    exact ⟨_, .op read (isQuantized_runs.bind (by
      rw [show s.tick.isQuantized settings = false from quantized]
      exact (fillCaches_runs_iff v row.neighbors).mpr ⟨rfl, rfl⟩))⟩
  | true =>
    obtain ⟨q, present⟩ := ne_none_iff_exists'.mp (quant quantized)
    have look : exec settings (fun _ => false) task (.readQuantized 0) s.tick =
        some (s.tick.tick, some q) := congrArg (fun q => some (s.tick.tick, q)) present
    exact ⟨_, .op read (isQuantized_runs.bind (by
      rw [show s.tick.isQuantized settings = true from quantized]
      exact .op look (.op rfl ((fillCaches_runs_iff v row.neighbors).mpr ⟨rfl, rfl⟩))))⟩

/-- The state after a start point has been written: `quantized` changes if the index is quantized. -/
structure State.Wrote (s : State τ V Q E maxDegree) (settings : Settings V Q) (point : V)
    (s' : State τ V Q E maxDegree) : Prop where
  eq : s' = { s with
    fsm := { s.fsm with clock := s'.fsm.clock }
    vectors := update s.vectors 0 (some point)
    quantized := s'.quantized
    neighbors := update s.neighbors 0 (some Row.zero)
    startPointCache := some point
    startPointQuantCache := s'.startPointQuantCache
    neighborCache := some [] }
  quantized : s.isQuantized settings = true →
    ∃ q, s.compress point = some q ∧ s'.quantized = update s.quantized 0 (some q)

omit [DecidableEq τ] [DecidableEq E] in
theorem State.Wrote.neighbors (wrote : s.Wrote settings point s') :
    s'.neighbors 0 = some Row.zero ∧ s'.neighborCache = some [] := by
  rw [wrote.eq]
  exact ⟨by simp only [update_self], rfl⟩

theorem writeRow_runs_ok (run : Runs (exec settings fails) task (writeRow point) s (.ok ()) s') :
    s' = { s with
      fsm := s.fsm.tick
      neighbors := update s.neighbors 0 (some Row.zero)
      startPointCache := some point
      neighborCache := some [] } := by
  obtain ⟨s₁, written, step, run⟩ := run.of_op
  unfold exec at step
  obtain ⟨-, rfl, rfl⟩ | ⟨-, rfl, rfl⟩ := callback_cases step
  · cases run.of_ret.1
  · exact ((fillCaches_runs_iff point []).mp run).2

theorem writeStartPoint_runs_ok
    (run : Runs (exec settings fails) task (writeStartPoint settings point) s (.ok ()) s') :
    s.Wrote settings point s' := by
  obtain ⟨s₁, written, step, run⟩ := run.of_op
  unfold exec at step
  obtain ⟨-, rfl, rfl⟩ | ⟨-, rfl, rfl⟩ := callback_cases step
  · cases run.of_ret.1
  replace run := isQuantized_runs.bind_iff.mp run
  cases quantized : s.isQuantized settings with
  | false =>
    rw [show (s.tick.setVector 0 (some point)).isQuantized settings = false from quantized] at run
    obtain rfl := writeRow_runs_ok run
    exact ⟨rfl, fun yes => by rw [quantized] at yes; cases yes⟩
  | true =>
    rw [show (s.tick.setVector 0 (some point)).isQuantized settings = true from quantized] at run
    replace run := run.after rfl
    cases res : s.compress point with
    | none =>
      rw [show (s.tick.setVector 0 (some point)).compress point = none from res] at run
      cases run.of_ret.1
    | some q =>
      rw [show (s.tick.setVector 0 (some point)).compress point = some q from res] at run
      obtain ⟨_, written, step, run⟩ := run.of_op
      unfold exec at step
      obtain ⟨-, rfl, rfl⟩ | ⟨-, rfl, rfl⟩ := callback_cases step
      · cases run.of_ret.1
      obtain rfl := writeRow_runs_ok (run.after rfl)
      exact ⟨rfl, fun _ => ⟨q, res, rfl⟩⟩

theorem writeStartPoint_ok (quant : s.isQuantized settings = true → s.compress point ≠ none) :
    ∃ s', Runs (exec settings fun _ => false) task (writeStartPoint settings point) s (.ok ()) s' := by
  cases quantized : s.isQuantized settings with
  | false =>
    exact ⟨_, .op rfl (isQuantized_runs.bind (by
      rw [show (s.tick.setVector 0 (some point)).isQuantized settings = false from quantized]
      exact .op rfl ((fillCaches_runs_iff point []).mpr ⟨rfl, rfl⟩)))⟩
  | true =>
    obtain ⟨q, res⟩ := ne_none_iff_exists'.mp (quant quantized)
    exact ⟨_, .op rfl (isQuantized_runs.bind (by
      rw [show (s.tick.setVector 0 (some point)).isQuantized settings = true from quantized]
      exact .op (congrArg (fun q => some (_, q)) res) (.op rfl (.op rfl (.op rfl
        ((fillCaches_runs_iff point []).mpr ⟨rfl, rfl⟩))))))⟩

/-! ## Attempts -/

/-- What a run of `maybe_set_start_point` goes through. -/
inductive StartRun (settings : Settings V Q) (fails : ℕ → Bool) (task : τ) (point : V)
    (s : State τ V Q E maxDegree) :
    Except GarnetProviderError Unit → State τ V Q E maxDegree → Prop
  | loaded {v : V} {value : Except GarnetProviderError Unit} {s' : State τ V Q E maxDegree}
      (stored : s.vectors 0 = some v)
      (run : Runs (exec settings fails) task (loadStartPoint settings v) s.tick value s') :
      StartRun settings fails task point s value s'
  | noId {error : Fsm.FsmError} {s' : State τ V Q E maxDegree}
      (ids : Runs (Fsm.exec fails) task Fsm.nextId s.tick.fsm (.error error) s'.fsm)
      (same : s.tick.Same s') : StartRun settings fails task point s (.error (.fsm error)) s'
  | otherId {guard : Fsm.ReuseGuard} {outcome : Except Fsm.FsmError Unit}
      {error : GarnetProviderError} {s₁ s₂ : State τ V Q E maxDegree}
      (ids : Runs (Fsm.exec fails) task Fsm.nextId s.tick.fsm (.ok guard) s₁.fsm)
      (same : s.tick.Same s₁) (other : guard.id ≠ 0)
      (freed : Runs (Fsm.exec fails) task (Fsm.markFree guard.id) s₁.fsm outcome s₂.fsm)
      (same' : s₁.Same s₂) :
      StartRun settings fails task point s (.error error) (s₂.dropped task guard.id)
  | wrote {guard : Fsm.ReuseGuard} {value : Except GarnetProviderError Unit}
      {s₁ s₂ : State τ V Q E maxDegree}
      (absent : fails s.fsm.clock = false → s.vectors 0 = none)
      (ids : Runs (Fsm.exec fails) task Fsm.nextId s.tick.fsm (.ok guard) s₁.fsm)
      (same : s.tick.Same s₁) (zero : guard.id = 0)
      (run : Runs (exec settings fails) task (writeStartPoint settings point) s₁ value s₂) :
      StartRun settings fails task point s value (s₂.dropped task guard.id)

theorem maybeSetStartPoint_runs {value : Except GarnetProviderError Unit}
    (run : Runs (exec settings fails) task (maybeSetStartPoint settings point) s value s') :
    StartRun settings fails task point s value s' := by
  replace run := run.after rfl
  cases answer : if fails s.fsm.clock = true then none else s.vectors 0 with
  | some v =>
    rw [answer] at run
    split_ifs at answer
    exact .loaded answer run
  | none =>
    rw [answer] at run
    have absent : fails s.fsm.clock = false → s.vectors 0 = none := fun works => by
      rwa [works] at answer
    obtain ⟨taken, s₁, first, run⟩ := run.of_bind
    obtain ⟨ids, same⟩ := of_fsm_runs first
    cases taken with
    | error error =>
      obtain ⟨rfl, rfl⟩ := run.of_ret
      exact .noId ids same
    | ok guard =>
      dsimp only at run
      split_ifs at run with other
      · obtain ⟨out, s₂, freed, run⟩ := run.of_bind
        obtain ⟨freed, same'⟩ := of_fsm_runs freed
        cases out with
        | error error =>
          obtain ⟨_, s₃, dropped, run⟩ := run.of_bind
          obtain ⟨rfl, rfl⟩ := run.of_ret
          obtain rfl := dropGuard_runs_iff.mp dropped
          exact .otherId ids same other freed same'
        | ok =>
          obtain ⟨_, s₃, dropped, run⟩ := run.of_bind
          obtain ⟨rfl, rfl⟩ := run.of_ret
          obtain rfl := dropGuard_runs_iff.mp dropped
          exact .otherId ids same other freed same'
      · obtain ⟨value, s₂, wrote, run⟩ := run.of_bind
        obtain ⟨_, s₃, dropped, run⟩ := run.of_bind
        obtain ⟨rfl, rfl⟩ := run.of_ret
        obtain rfl := dropGuard_runs_iff.mp dropped
        exact .wrote absent ids same (not_not.mp other) wrote

/-- Without start points, the initializer runs and decides what the index goes on as. -/
theorem ensureIndexReadyOrInit_runs_iff {res : Option GarnetProviderError}
    (waiting : s.indexState = .noStartPoints) :
    Runs (exec settings fails) task (ensureIndexReadyOrInit settings point) s res s' ↔
      ∃ out s₁, Runs (exec settings fails) task (maybeSetStartPoint settings point)
        { s with indexState := .settingStartPoints } out s₁ ∧
        match out with
        | .error error => res = some error ∧ s' = { s₁ with indexState := .noStartPoints }
        | .ok () => res = none ∧ s' = { s₁ with indexState := .ready } := by
  have load : exec settings fails task .loadIndexState s = some (s, .noStartPoints) :=
    congrArg (fun state => some (s, state)) waiting
  have exchange : exec settings fails task .startSetting s =
      some ({ s with indexState := .settingStartPoints }, true) := if_pos waiting
  refine runs_loop_iff.trans (runs_bind_iff.trans ⟨?_, ?_⟩)
  · rintro ⟨r, s₂, iteration, run⟩
    replace iteration := (runs_op_iff_of_eq exchange).mp ((runs_op_iff_of_eq load).mp iteration)
    obtain ⟨out, s₁, attempt, iteration⟩ := iteration.of_bind
    refine ⟨out, s₁, attempt, ?_⟩
    cases out with
    | error error =>
      replace iteration := iteration.after rfl
      obtain ⟨rfl, rfl⟩ := iteration.of_ret
      exact run.of_ret
    | ok =>
      replace iteration := iteration.after rfl
      obtain ⟨rfl, rfl⟩ := iteration.of_ret
      exact run.of_ret
  · rintro ⟨out, s₁, attempt, finish⟩
    cases out with
    | error error =>
      obtain ⟨rfl, rfl⟩ := finish
      exact ⟨.inr (some error), _, .op load (.op exchange (attempt.bind (.op rfl (.ret _ _)))),
        .ret _ _⟩
    | ok =>
      obtain ⟨rfl, rfl⟩ := finish
      exact ⟨.inr none, _, .op load (.op exchange (attempt.bind (.op rfl (.ret _ _)))), .ret _ _⟩

/-- Where an index stands before its start point is set. -/
structure State.Waiting (s : State τ V Q E maxDegree) : Prop where
  sound : s.fsm.Sound False
  rest : s.fsm.AtRest
  used : s.vectors 0 ≠ none → s.fsm.used 0 = true

theorem State.Waiting.maybeSetStartPoint {value : Except GarnetProviderError Unit}
    (waiting : s.Waiting)
    (run : Runs (exec settings fails) task (maybeSetStartPoint settings point) s value s') :
    s'.Waiting := by
  have never : False → ∀ n, fails n = false := False.elim
  obtain ⟨sound', rest'⟩ := rest_of_runs never waiting.sound waiting.rest
    (fun _ calm => maybeSetStartPoint_wp settings point calm) run
  refine ⟨sound', rest', ?_⟩
  have sound : s.tick.fsm.Sound False := { waiting.sound with }
  have rest : s.tick.fsm.AtRest := { waiting.rest with }
  cases maybeSetStartPoint_runs run with
  | loaded stored ran =>
    rw [(loadStartPoint_runs ran).1, State.used,
      blocks_of_plain (loadStartPoint_calls settings _) ran]
    exact waiting.used
  | noId ids same =>
    rw [same]
    exact fun stored => nextId_runs_keeps never sound rest ids (waiting.used stored)
  | otherId ids same other freed same' =>
    intro stored
    have before : s.vectors 0 ≠ none := by
      rwa [same', same] at stored
    have used := nextId_runs_keeps never sound rest ids (waiting.used before)
    rw [State.used_dropped]
    obtain ⟨-, same⟩ | ⟨-, bits⟩ := markFree_runs_cases freed
    · rwa [same]
    · rwa [bits, if_neg other.symm]
  | wrote absent ids same zero ran =>
    intro _
    have taken := (nextId_runs_taken ids).used
    rwa [zero, State.used, ← blocks_of_plain (writeStartPoint_calls settings point) ran] at taken

/-- Attempts that have all failed, at whatever callback and for whatever point. -/
inductive Attempts (settings : Settings V Q) (s : State τ V Q E maxDegree) :
    State τ V Q E maxDegree → Prop
  | none : Attempts settings s s
  | failed {fails : ℕ → Bool} {task : τ} {point : V} {error : GarnetProviderError}
      {s₁ s₂ : State τ V Q E maxDegree} (before : Attempts settings s s₁)
      (attempt : Runs (exec settings fails) task (ensureIndexReadyOrInit settings point) s₁
        (some error) s₂) : Attempts settings s s₂

theorem Attempts.waiting (attempts : Attempts settings s s') (waiting : s.Waiting)
    (state : s.indexState = .noStartPoints) : s'.Waiting ∧ s'.indexState = .noStartPoints := by
  induction attempts with
  | none => exact ⟨waiting, state⟩
  | @failed _ _ _ _ s₁ _ _ attempt ih =>
    obtain ⟨out, s₂, run, finish⟩ := (ensureIndexReadyOrInit_runs_iff ih.2).mp attempt
    have began : State.Waiting { s₁ with indexState := .settingStartPoints } := { ih.1 with }
    have after := began.maybeSetStartPoint run
    cases out with
    | error error =>
      obtain ⟨-, rfl⟩ := finish
      exact ⟨{ after with }, rfl⟩
    | ok => cases finish.1

omit [DecidableEq τ] [DecidableEq E] in
/-- A provider over an empty store. -/
theorem new_cases {s : State τ V Q E settings.maxDegree} (opened : new τ E settings fails = .ok s) :
    ∃ map clock fails' quantizationEnabled reuseEnabled,
      Fsm.new τ fails' (fun _ => none) quantizationEnabled reuseEnabled = .ok map ∧
      s = .empty E settings { map with clock } := by
  rw [new] at opened
  dsimp only at opened
  split_ifs at opened
  all_goals
    split at opened
    · cases opened
    · rename_i made
      exact ⟨_, _, _, _, _, made, (Except.ok.inj opened).symm⟩

omit [DecidableEq τ] [DecidableEq E] in
theorem new_waiting {s : State τ V Q E settings.maxDegree} (opened : new τ E settings fails = .ok s) :
    s.Waiting ∧ s.indexState = .noStartPoints := by
  obtain ⟨map, clock, _, _, _, made, rfl⟩ := new_cases opened
  obtain ⟨sound, rest⟩ := Fsm.new_empty False made
  exact ⟨⟨{ sound with }, { rest with }, absurd rfl⟩, rfl⟩

/-- What the next attempt needs: with a vector for id 0, the other keys of the start point; without
one, that `next_id` hands out id 0, because nothing has been minted or because 0 is the id that it
finds to reuse. -/
def State.Startable (s : State τ V Q E maxDegree) (settings : Settings V Q) (point : V) : Prop :=
  match s.vectors 0 with
  | some _ => s.neighbors 0 ≠ none ∧ (s.isQuantized settings = true → s.quantized 0 ≠ none)
  | none => (s.fsm.idMinter.nextId = 0 ∨ s.fsm.reuses = some 0) ∧
      (s.isQuantized settings = true → s.compress point ≠ none)

omit [DecidableEq τ] [DecidableEq E] in
theorem State.Waiting.pick_eq_zero_iff (waiting : s.Waiting) :
    s.fsm.pick = 0 ↔ s.fsm.idMinter.nextId = 0 ∨ s.fsm.reuses = some 0 := by
  rw [State.pick]
  cases found : s.fsm.reuses with
  | none => simp
  | some id =>
    have below := (waiting.sound.reuses_spec waiting.rest found).1
    simp only [getD_some, some.injEq]
    omega

theorem State.Waiting.startable (waiting : s.Waiting)
    (run : Runs (exec settings fun _ => false) task (Provider.maybeSetStartPoint settings point) s
      (.ok ()) s') : s.Startable settings point := by
  rw [State.Startable]
  cases maybeSetStartPoint_runs run with
  | loaded stored ran =>
    obtain ⟨-, loaded⟩ := loadStartPoint_runs ran
    obtain ⟨-, ⟨row, present, -⟩, -, quant⟩ := loaded rfl
    rw [stored]
    exact ⟨by rw [show s.neighbors 0 = some row from present]; exact some_ne_none row, quant⟩
  | wrote absent ids same zero ran =>
    rw [absent rfl]
    have sound : s.tick.fsm.Sound False := { waiting.sound with }
    have rest : s.tick.fsm.AtRest := { waiting.rest with }
    have picked := (nextId_runs_id sound rest ids).1
    refine ⟨waiting.pick_eq_zero_iff.mp (picked.symm.trans zero), fun quantized => ?_⟩
    have wrote := (writeStartPoint_runs_ok ran).quantized
    rw [same] at wrote
    obtain ⟨q, compressed, -⟩ := wrote quantized
    rw [show s.compress point = some q from compressed]
    exact some_ne_none q

theorem State.Startable.maybeSetStartPoint (startable : s.Startable settings point)
    (waiting : s.Waiting) (task : τ) :
    ∃ s', Runs (exec settings fun _ => false) task (Provider.maybeSetStartPoint settings point) s
      (.ok ()) s' ∧ s'.startPointsExist = true ∧ s'.fsm.used 0 = true := by
  have sound : s.tick.fsm.Sound False := { waiting.sound with }
  have rest : s.tick.fsm.AtRest := { waiting.rest with }
  rw [State.Startable] at startable
  cases stored : s.vectors 0 with
  | some v =>
    rw [stored] at startable
    obtain ⟨row, present⟩ := ne_none_iff_exists'.mp startable.1
    obtain ⟨s', run⟩ : ∃ s', Runs (exec settings fun _ => false) task (loadStartPoint settings v)
      s.tick (.ok ()) s' := loadStartPoint_ok present startable.2
    obtain ⟨-, loaded⟩ := loadStartPoint_runs run
    obtain ⟨-, ⟨row', -, cached⟩, point_cached, -⟩ := loaded rfl
    refine ⟨s', .op (congrArg (fun v => some (s.tick, v)) stored) run, ?_, ?_⟩
    · rw [State.startPointsExist, cached, point_cached]
      rfl
    · rw [State.used, blocks_of_plain (loadStartPoint_calls settings v) run]
      exact waiting.used (by rw [stored]; exact some_ne_none v)
  | none =>
    rw [stored] at startable
    have zero : s.tick.fsm.pick = 0 := waiting.pick_eq_zero_iff.mpr startable.1
    obtain ⟨map, ids, used, -⟩ := nextId_runs task sound rest fun none => by
      have first : s.tick.fsm.idMinter.nextId = 0 := by rwa [State.pick, none] at zero
      rw [first]
      exact ⟨by decide, Nat.zero_le _⟩
    obtain ⟨s₁, here, same, taken⟩ := fsm_runs settings ids
    have quant : s₁.isQuantized settings = true → s₁.compress point ≠ none := by
      rw [same]
      exact startable.2
    obtain ⟨s₂, run⟩ : ∃ s₂, Runs (exec settings fun _ => false) task (writeStartPoint settings point)
      s₁ (.ok ()) s₂ := writeStartPoint_ok quant
    have wrote := writeStartPoint_runs_ok run
    refine ⟨s₂.dropped task s.tick.fsm.pick,
      .op (congrArg (fun v => some (s.tick, v)) stored) (taken.bind ?_), ?_, ?_⟩
    · dsimp only
      rw [if_neg (not_not.mpr zero)]
      exact run.bind (dropGuard_runs.bind (.ret _ _))
    · rw [wrote.eq]
      rfl
    · rw [wrote.eq]
      change s₁.fsm.used 0 = true
      rw [here, used, if_pos zero.symm]

/-- An index without a quantizer. -/
def plain : Settings ℕ Unit := ⟨2, none⟩

def emptyIndex : State Unit ℕ Unit ℕ 2 :=
  .empty ℕ plain { Fsm.State.over Unit (update (fun _ => none) 0 (some Fsm.Block.zero)) 2
    ⟨-1, 0, [], 0⟩ 0 false true with clock := 3 }

/-- The empty index after an attempt whose write of the vector, the sixth callback, has failed. -/
def halfStarted : State Unit ℕ Unit ℕ 2 :=
  ((evaluate (exec plain (· == 5)) () 60 (ensureIndexReadyOrInit plain 7) emptyIndex).get rfl).2

end DiskAnn.Garnet.Provider
