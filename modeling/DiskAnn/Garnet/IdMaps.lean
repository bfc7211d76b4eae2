import DiskAnn.Garnet.StartNeighbors

/-! # The id maps of the provider

`set_element` takes an internal id and enters it in two maps under separate keys; `delete` removes
both entries and marks the id free. The maps stay inverse to each other, and the ids in use stay those
with an external id, as long as `set_element` is only called for external ids that are not there: the
entry of an id that is overwritten is never removed.
-/

namespace DiskAnn.Garnet.Provider

open Machine Prog Function State Option

/-! ## Two maps -/

section Inverse

variable {A B : Type} {f : A → Option B} {g : B → Option A} {a : A}

/-- Each map leads back from where the other leads. -/
def Inverse (f : A → Option B) (g : B → Option A) : Prop := ∀ a b, f a = some b ↔ g b = some a

variable [DecidableEq A] [DecidableEq B]
  {b : B}

theorem Inverse.insert (inverse : Inverse f g) (fresh : f a = none) (free : g b = none) :
    Inverse (update f a (some b)) (update g b (some a)) := by
  intro a' b'
  have apart : f a ≠ some b' ∧ g b ≠ some a' := by
    rw [fresh, free]
    exact ⟨(some_ne_none _).symm, (some_ne_none _).symm⟩
  by_cases here : a' = a
  · subst here
    by_cases there : b' = b
    · subst there
      simp
    · simpa [there, Ne.symm there] using fun mapped => apart.1 ((inverse a' b').mpr mapped)
  · by_cases there : b' = b
    · subst there
      simpa [here, Ne.symm here] using fun mapped => apart.2 ((inverse a' b').mp mapped)
    · simpa [here, there] using inverse a' b'

theorem Inverse.erase (inverse : Inverse f g) (mapped : f a = some b) :
    Inverse (update f a none) (update g b none) := by
  intro a' b'
  by_cases here : a' = a
  · subst here
    by_cases there : b' = b
    · subst there
      simp
    · have other : g b' ≠ some a' := fun back => there (by
        have same := (inverse a' b').mpr back
        rw [mapped] at same
        exact (some.inj same).symm)
      simpa [there] using other
  · by_cases there : b' = b
    · subst there
      have other : f a' ≠ some b' := fun back => here (by
        have same := (inverse a' b').mp back
        rw [(inverse a b').mp mapped] at same
        exact (some.inj same).symm)
      simpa [here] using other
    · simpa [here, there] using inverse a' b'

/-- An overwritten entry stays in the other map. -/
theorem Inverse.not_overwrite {old : B} (inverse : Inverse f g) (mapped : f a = some old)
    (ne : old ≠ b) :
    ¬ Inverse (update f a (some b)) (update g b (some a)) := by
  intro after
  have back : update g b (some a) old = some a := by
    rw [update_of_ne ne]
    exact (inverse a old).mp mapped
  have forth := (after a old).mpr back
  rw [update_self] at forth
  exact ne (some.inj forth).symm

end Inverse

/-! ## What the calls do -/

variable {τ V Q E : Type} [DecidableEq τ] [DecidableEq E] {maxDegree : ℕ} {settings : Settings V Q}
  {task : τ} {s s' : State τ V Q E maxDegree} {external : E}

/-- Nothing but the flag in the context has changed. -/
theorem noteReady_runs {fails : ℕ → Bool} {guard : Fsm.ReuseGuard} {value : Unit}
    (run : Runs (exec settings fails) task (noteReady settings guard) s value s') :
    s' = { s with quantizerReady := s'.quantizerReady } := by
  unfold noteReady at run
  cases present : settings.quantizer with
  | none =>
    rw [present] at run
    obtain ⟨-, rfl⟩ := run.of_ret
    rfl
  | some quantizer =>
    rw [present] at run
    split_ifs at run
    · obtain ⟨-, rfl⟩ := run.of_ret
      rfl
    · replace run := run.after rfl
      cases trained : s.isTrained with
      | true =>
        rw [trained] at run
        obtain ⟨-, rfl⟩ := run.of_ret
        rfl
      | false =>
        rw [trained] at run
        replace run := run.after rfl
        split_ifs at run
        · obtain ⟨_, _, step, run⟩ := runs_call_iff.mp run
          cases step
          obtain ⟨-, rfl⟩ := run.of_ret
          rfl
        · obtain ⟨-, rfl⟩ := run.of_ret
          rfl

theorem insertMaps_runs_ok {id : ℕ}
    (run : Runs (exec settings fun _ => false) task (insertMaps id external) s (.ok ()) s') :
    s'.extMap = update s.extMap id (some external) ∧
      s'.intMap = update s.intMap external (some id) := by
  replace run := run.after rfl
  replace run := run.after rfl
  obtain ⟨-, rfl⟩ := run.of_ret
  exact ⟨rfl, rfl⟩

theorem insert_runs_ok {guard : Fsm.ReuseGuard} {element : V}
    (run : Runs (exec settings fun _ => false) task (insert settings guard external element) s
      (.ok ()) s') :
    s'.extMap = update s.extMap guard.id (some external) ∧
      s'.intMap = update s.intMap external (some guard.id) := by
  replace run := run.after rfl
  rw [if_neg (show ¬ (!true) = true from Bool.false_ne_true)] at run
  split_ifs at run
  · replace run := run.after rfl
    cases res : (s.tick.setVector guard.id (some element)).compress element with
    | none =>
      rw [res] at run
      cases run.of_ret.1
    | some q =>
      rw [res] at run
      replace run := run.after rfl
      obtain ⟨outside, inside⟩ := insertMaps_runs_ok run
      exact ⟨outside, inside⟩
  · obtain ⟨outside, inside⟩ := insertMaps_runs_ok run
    exact ⟨outside, inside⟩

/-- A `set_element` that succeeds takes a free id and enters it in both maps. -/
theorem setElement_runs_ok {element : V} {id : ℕ} (sound : s.fsm.Sound True) (rest : s.fsm.AtRest)
    (run : Runs (exec settings fun _ => false) task (setElement settings external element) s (.ok id)
      s') :
    s.fsm.used id = false ∧
      (∀ other, s'.fsm.used other = if other = id then true else s.fsm.used other) ∧
      s'.extMap = update s.extMap id (some external) ∧
      s'.intMap = update s.intMap external (some id) := by
  rw [setElement, monad_bind_eq, runs_bind_iff] at run
  obtain ⟨taken, s₁, first, run⟩ := run
  obtain ⟨ids, same⟩ := of_fsm_runs first
  cases taken with
  | error error => cases run.of_ret.1
  | ok guard =>
    obtain ⟨-, free, used⟩ := Fsm.nextId_runs_used sound rest ids
    obtain ⟨_, s₂, noted, run⟩ := run.of_bind
    obtain ⟨res, s₃, inserted, run⟩ := run.of_bind
    cases res with
    | error error =>
      obtain ⟨out, s₄, _, run⟩ := run.of_bind
      cases out <;>
      · obtain ⟨_, s₅, _, run⟩ := run.of_bind
        cases run.of_ret.1
    | ok =>
      obtain ⟨_, s₄, dropped, run⟩ := run.of_bind
      obtain ⟨here, rfl⟩ := run.of_ret
      obtain rfl := dropGuard_runs_iff.mp dropped
      cases here
      obtain ⟨outside, inside⟩ := insert_runs_ok inserted
      have blocks : s₃.fsm.blocks = s₁.fsm.blocks := by
        rw [blocks_of_plain (insert_calls settings guard external element) inserted,
          noteReady_runs noted]
      refine ⟨free, fun other => ?_, ?_, ?_⟩
      · rw [← used other, used_dropped, Fsm.State.used, blocks]
        rfl
      · rw [State.dropped, outside, noteReady_runs noted, same]
      · rw [State.dropped, inside, noteReady_runs noted, same]

/-- What `delete` leaves before it marks the id free. -/
def State.erased (s : State τ V Q E maxDegree) (task : τ) (external : E) (id : ℕ) :
    State τ V Q E maxDegree :=
  ((((((s.tick.hold task id).tick.setExternal id none).tick.setInternal external none).tick.setAttributes
    id none).tick.setVector id none).tick.setQuantized id none)

omit [DecidableEq τ] in
theorem State.used_erased (id other : ℕ) :
    (s.erased task external id).fsm.used other = s.fsm.used other := by
  simp only [erased, tick, hold, setExternal, setInternal,
    setAttributes, setVector, setQuantized, Fsm.State.used, Fsm.State.tick]

/-- A `delete` that succeeds removes both entries of an id and marks it free. -/
theorem delete_runs_ok (run : Runs (exec settings fun _ => false) task (delete external) s (.ok ()) s') :
    ∃ id, s.intMap external = some id ∧
      (∀ other, s'.fsm.used other = if other = id then false else s.fsm.used other) ∧
      s'.extMap = update s.extMap id none ∧
      s'.intMap = update s.intMap external none := by
  cases found : s.intMap external with
  | none =>
    have look : exec settings (fun _ => false) task (.readIntMap external) s = some (s.tick, none) := by
      simp only [exec, found, Bool.false_eq_true, if_false]
    replace run := run.after look
    cases run.of_ret.1
  | some id =>
    have look : exec settings (fun _ => false) task (.readIntMap external) s =
        some (s.tick.hold task id, some id) := by
      simp only [exec, found, Bool.false_eq_true, if_false]
    replace run := run.after look
    replace run := run.after rfl
    replace run := run.after rfl
    replace run := run.after rfl
    replace run := run.after rfl
    replace run := run.after rfl
    obtain ⟨out, s₁, freed, run⟩ := run.of_bind
    obtain ⟨marked, same⟩ := of_fsm_runs
      (show Runs _ task _ (s.erased task external id) out s₁ from freed)
    cases out with
    | error error => cases run.of_ret.1
    | ok =>
      obtain ⟨-, rfl⟩ := run.of_ret
      obtain ⟨⟨_, ⟨⟩⟩, -⟩ | ⟨-, bits⟩ := Fsm.markFree_runs_cases marked
      refine ⟨id, rfl, fun other => ?_, ?_, ?_⟩
      · rw [bits other, used_erased]
      · rw [same]
        rfl
      · rw [same]
        rfl

/-! ## Sequences of calls -/

inductive ElementCall (V E : Type)
  | setElement (external : E) (element : V)
  | delete (external : E)

/-- The call, and whether it succeeded. -/
def ElementCall.code (settings : Settings V Q) :
    ElementCall V E → Code V Q E maxDegree (Except GarnetProviderError Unit)
  | setElement external element => do
      let result ← Provider.setElement settings external element
      pure (result.map fun _ => ())
  | delete external => Provider.delete external

/-- The maps are inverse to each other, the ids in use are the start point and those with an external
id, and every external id that is there stands for one id in use. -/
structure State.Mapped (s : State τ V Q E maxDegree) : Prop where
  inverse : Inverse s.intMap s.extMap
  used_iff : ∀ id, id ≠ 0 → (s.fsm.used id = true ↔ s.extMap id ≠ none)
  live : ∀ external, s.intMap external ≠ none →
    ∃! id, s.fsm.used id = true ∧ s.extMap id = some external

/-- `set_element` is called for an external id that is not there. -/
def ElementCall.Fresh (s : State τ V Q E maxDegree) : ElementCall V E → Prop
  | setElement external _ => s.intMap external = none
  | delete _ => True

/-- Between two calls. -/
structure State.Indexed (s : State τ V Q E maxDegree) : Prop where
  sound : s.fsm.Sound True
  rest : s.fsm.AtRest
  inverse : Inverse s.intMap s.extMap
  used_iff : ∀ id, s.fsm.used id = true ↔ id = 0 ∨ s.extMap id ≠ none
  start : s.extMap 0 = none

omit [DecidableEq τ] [DecidableEq E] in
theorem State.Indexed.mapped (indexed : s.Indexed) : s.Mapped where
  inverse := indexed.inverse
  used_iff := fun id other => (indexed.used_iff id).trans (or_iff_right other)
  live := fun external mapped => by
    obtain ⟨id, found⟩ := ne_none_iff_exists'.mp mapped
    have back := (indexed.inverse external id).mp found
    refine ⟨id, ⟨(indexed.used_iff id).mpr (.inr ?_), back⟩, fun other live => ?_⟩
    · rw [back]
      exact some_ne_none external
    · have forth := (indexed.inverse external other).mpr live.2
      exact some.inj (forth.symm.trans found)

open ElementCall

/-- In an indexed state a call that succeeds keeps the maps as they should be just in case it is
fresh. -/
theorem ElementCall.step_iff (indexed : s.Indexed) (call : ElementCall V E)
    (run : Runs (exec settings fun _ => false) task (call.code settings) s (.ok ()) s') :
    (call.Fresh s → s'.Indexed) ∧ (¬ call.Fresh s → ¬ s'.Mapped) := by
  cases call with
  | setElement external element =>
    rw [code, monad_bind_eq, runs_bind_iff] at run
    obtain ⟨res, s₁, ran, run⟩ := run
    obtain ⟨here, rfl⟩ := run.of_ret
    cases res with
    | error error => cases here
    | ok id =>
      obtain ⟨sound, rest⟩ := rest_of_runs (fun _ _ => rfl) indexed.sound indexed.rest
        (fun _ calm => setElement_wp settings external element calm) ran
      obtain ⟨free, used, outside, inside⟩ := setElement_runs_ok indexed.sound indexed.rest ran
      have unmapped : ¬ (id = 0 ∨ s.extMap id ≠ none) := by
        rw [← indexed.used_iff, free]
        exact Bool.false_ne_true
      push Not at unmapped
      constructor
      · intro fresh
        refine ⟨sound, rest, ?_, fun other => ?_, ?_⟩
        · rw [outside, inside]
          exact indexed.inverse.insert fresh unmapped.2
        · rw [used, outside]
          by_cases same : other = id
          · subst same
            simp
          · rw [if_neg same, update_of_ne same]
            exact indexed.used_iff other
        · rw [outside, update_of_ne unmapped.1.symm]
          exact indexed.start
      · intro present mapped
        obtain ⟨old, found⟩ := ne_none_iff_exists'.mp present
        have inverse := mapped.inverse
        rw [outside, inside] at inverse
        refine indexed.inverse.not_overwrite found ?_ inverse
        rintro rfl
        rw [(indexed.inverse external old).mp found] at unmapped
        exact some_ne_none external unmapped.2
  | delete external =>
    refine ⟨fun _ => ?_, fun stale => absurd trivial stale⟩
    obtain ⟨sound, rest⟩ := rest_of_runs (fun _ _ => rfl) indexed.sound indexed.rest
      (fun _ calm => delete_wp external calm) run
    obtain ⟨id, found, used, outside, inside⟩ := delete_runs_ok run
    have start : id ≠ 0 := by
      rintro rfl
      have back := (indexed.inverse external 0).mp found
      rw [indexed.start] at back
      cases back
    refine ⟨sound, rest, ?_, fun other => ?_, ?_⟩
    · rw [outside, inside]
      exact indexed.inverse.erase found
    · rw [used, outside]
      by_cases same : other = id
      · subst same
        simp [start]
      · rw [if_neg same, update_of_ne same]
        exact indexed.used_iff other
    · rw [outside, update_of_ne start.symm]
      exact indexed.start

/-- Setting the start point of an empty index. -/
theorem indexed_of_started {fails : ℕ → Bool} {s₀ s : State τ V Q E settings.maxDegree} {point : V}
    (opened : new τ E settings fails = .ok s₀)
    (started : Runs (exec settings fun _ => false) task (maybeSetStartPoint settings point) s₀ (.ok ())
      s) : s.Indexed := by
  obtain ⟨map, clock, _, _, _, made, rfl⟩ := new_cases opened
  obtain ⟨sound, rest⟩ := Fsm.new_empty True made
  obtain ⟨sound', rest'⟩ := rest_of_runs (fun _ _ => rfl) (s := .empty E settings { map with clock })
    { sound with } { rest with } (fun _ calm => maybeSetStartPoint_wp settings point calm) started
  cases maybeSetStartPoint_runs started with
  | loaded stored _ => cases stored
  | @wrote guard _ s₁ s₂ _ ids same zero run =>
    have opening : (empty E settings { map with clock } : State τ V Q E _).tick.fsm.Sound True :=
      { sound with }
    obtain ⟨-, -, used⟩ := Fsm.nextId_runs_used opening { rest with } ids
    have wrote := writeStartPoint_runs_ok run
    refine ⟨sound', rest', ?_, fun id => ?_, ?_⟩
    · rw [wrote.eq, same]
      exact fun _ _ => iff_of_false (fun found => by cases found) (fun found => by cases found)
    · have bit : s₂.fsm.used id = s₁.fsm.used id := by rw [wrote.eq]; rfl
      have free : (empty E settings { map with clock } : State τ V Q E _).tick.fsm.used id = false :=
        Fsm.new_empty_used made id
      have unmapped : (s₂.dropped task guard.id).extMap id = none := by
        rw [wrote.eq, same]
        rfl
      rw [used_dropped, unmapped, bit, used id, zero, free]
      simp
    · rw [wrote.eq, same]
      rfl

/-- A trace of successful calls from an indexed state. -/
theorem trace_mapped_iff (indexed : s.Indexed)
    {steps : List (Call (State τ V Q E maxDegree) (ElementCall V E) (Except GarnetProviderError Unit))}
    (trace : Trace (exec settings fun _ => false) task (code settings) s steps)
    (succeed : ∀ step ∈ steps, step.value = .ok ()) :
    (∀ step ∈ steps, step.after.Mapped) ↔ ∀ step ∈ steps, step.call.Fresh step.before := by
  induction steps generalizing s with
  | nil => simp
  | cons step rest ih =>
    obtain ⟨rfl, run, trace⟩ := trace
    rw [List.forall_mem_cons] at succeed ⊢
    rw [List.forall_mem_cons]
    rw [succeed.1] at run
    obtain ⟨keeps, breaks⟩ := step.call.step_iff indexed run
    constructor
    · rintro ⟨first, others⟩
      have fresh : step.call.Fresh step.before := by
        by_contra stale
        exact breaks stale first
      exact ⟨fresh, (ih (keeps fresh) trace succeed.2).mp others⟩
    · rintro ⟨fresh, others⟩
      exact ⟨(keeps fresh).mapped, (ih (keeps fresh) trace succeed.2).mpr others⟩

/-- In an index that was opened over an empty store and given its start point, over any sequence of
successful `set_element` and `delete` calls: the maps are inverse to each other and agree with the free
space map after every call if and only if `set_element` is only called for external ids that are not
there. -/
theorem id_maps_inverse_iff {fails : ℕ → Bool} {s₀ s : State τ V Q E settings.maxDegree} {point : V}
    (opened : new τ E settings fails = .ok s₀)
    (started : Runs (exec settings fun _ => false) task (maybeSetStartPoint settings point) s₀ (.ok ())
      s)
    {steps : List (Call (State τ V Q E settings.maxDegree) (ElementCall V E)
      (Except GarnetProviderError Unit))}
    (trace : Trace (exec settings fun _ => false) task (ElementCall.code settings) s steps)
    (succeed : ∀ step ∈ steps, step.value = .ok ()) :
    (∀ step ∈ steps, step.after.Mapped) ↔ ∀ step ∈ steps, step.call.Fresh step.before :=
  trace_mapped_iff (indexed_of_started opened started) trace succeed

/-- An index with vector 8 under external id 5. -/
def oneElement : State Unit ℕ Unit ℕ 2 :=
  ((evaluate (exec plain fun _ => false) () 60
    (ElementCall.code plain (.setElement 5 8)) started).get rfl).2

theorem oneElement_runs : Runs (exec plain fun _ => false) ()
    (code plain (.setElement 5 8)) started (.ok ()) oneElement :=
  Runs.get_evaluate _ () 60 _ started rfl

/-- And without it again. -/
def noElement : State Unit ℕ Unit ℕ 2 :=
  ((evaluate (exec plain fun _ => false) () 60
    (ElementCall.code plain (.delete 5)) oneElement).get rfl).2

theorem noElement_runs : Runs (exec plain fun _ => false) ()
    (code plain (.delete 5)) oneElement (.ok ()) noElement :=
  Runs.get_evaluate _ () 60 _ oneElement rfl

def setAndDelete :
    List (Call (State Unit ℕ Unit ℕ 2) (ElementCall ℕ ℕ) (Except GarnetProviderError Unit)) :=
  [⟨started, .setElement 5 8, .ok (), oneElement⟩, ⟨oneElement, .delete 5, .ok (), noElement⟩]

/-- External id 5 is set and deleted. -/
theorem id_maps_inverse_deleted :
    new Unit ℕ plain (fun _ => false) = .ok emptyIndex ∧
      Runs (exec plain fun _ => false) () (maybeSetStartPoint plain 7) emptyIndex (.ok ()) started ∧
      Trace (exec plain fun _ => false) () (ElementCall.code plain) started setAndDelete ∧
      (∀ step ∈ setAndDelete, step.value = .ok ()) ∧
      (∀ step ∈ setAndDelete, step.call.Fresh step.before) ∧
      ∀ step ∈ setAndDelete, step.after.Mapped := by
  have opened : new Unit ℕ plain (fun _ => false) = .ok emptyIndex := rfl
  have trace : Trace (exec plain fun _ => false) () (ElementCall.code plain) started setAndDelete :=
    ⟨rfl, oneElement_runs, rfl, noElement_runs, trivial⟩
  have succeed : ∀ step ∈ setAndDelete, step.value = .ok () := by simp [setAndDelete]
  have fresh : ∀ step ∈ setAndDelete, step.call.Fresh step.before := by
    simp only [setAndDelete, List.forall_mem_cons]
    exact ⟨rfl, trivial, by simp⟩
  exact ⟨opened, started_runs, trace, succeed, fresh,
    (id_maps_inverse_iff opened started_runs trace succeed).mpr fresh⟩

/-- The index after vector 9 is set under external id 5 as well. -/
def twoElements : State Unit ℕ Unit ℕ 2 :=
  ((evaluate (exec plain fun _ => false) () 60
    (ElementCall.code plain (.setElement 5 9)) oneElement).get rfl).2

theorem twoElements_runs : Runs (exec plain fun _ => false) ()
    (code plain (.setElement 5 9)) oneElement (.ok ()) twoElements :=
  Runs.get_evaluate _ () 60 _ oneElement rfl

/-- Both internal ids are then in use for external id 5, which leads to one of them. -/
theorem id_maps_overwritten :
    new Unit ℕ plain (fun _ => false) = .ok emptyIndex ∧
      Runs (exec plain fun _ => false) () (maybeSetStartPoint plain 7) emptyIndex (.ok ()) started ∧
      Trace (exec plain fun _ => false) () (ElementCall.code plain) started
        [⟨started, .setElement 5 8, .ok (), oneElement⟩,
          ⟨oneElement, .setElement 5 9, .ok (), twoElements⟩] ∧
      twoElements.intMap 5 = some 2 ∧ twoElements.extMap 1 = some 5 ∧
      twoElements.extMap 2 = some 5 ∧ twoElements.fsm.used 1 = true ∧
      twoElements.fsm.used 2 = true ∧ ¬ twoElements.Mapped := by
  refine ⟨rfl, started_runs, ⟨rfl, oneElement_runs, rfl, twoElements_runs, trivial⟩, rfl, rfl, rfl, rfl,
    rfl, fun mapped => ?_⟩
  have back : twoElements.intMap 5 = some 1 := (mapped.inverse 5 1).mpr rfl
  cases back

end DiskAnn.Garnet.Provider
