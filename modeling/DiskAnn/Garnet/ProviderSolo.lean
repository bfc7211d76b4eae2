import DiskAnn.Garnet.FsmSolo
import DiskAnn.Garnet.Provider

/-! # Calls of the provider one at a time

The code of the provider treats the free space map as its own clients do, so a call that ends leaves
the map sound and at rest, whatever callbacks fail. What a call does to the rest of the state is read
off its run.
-/

namespace DiskAnn.Garnet.Provider

open Machine Protocol Prog Function Fsm

variable {τ V Q E : Type} [DecidableEq τ] [DecidableEq E] {maxDegree : ℕ} {settings : Settings V Q}
  {fails : ℕ → Bool} {task : τ} {s s' : State τ V Q E maxDegree} {α : Type}

/-! ## The free space map in a run -/

omit [DecidableEq τ] [DecidableEq E] in
/-- Nothing but the free space map and the history of what is in hand has changed. -/
def State.Same (s s' : State τ V Q E maxDegree) : Prop :=
  s' = { s with fsm := s'.fsm, held := s'.held }

variable (s)

omit [DecidableEq τ] [DecidableEq E] in
theorem State.Same.refl : s.Same s := rfl

omit [DecidableEq τ] [DecidableEq E] in
theorem State.Same.trans (s s' s'' : State τ V Q E maxDegree) (first : s.Same s') (second : s'.Same s'') :
    s.Same s'' := by
  rw [State.Same] at first second ⊢
  rw [second, first]

omit [DecidableEq E] in
theorem State.noteHeld_same (map : Fsm.State τ) (task : τ) (o : Fsm.Op)
    (r : o.Res) : (({ s with fsm := map } : State τ V Q E maxDegree).noteHeld task o r).fsm = map ∧
      s.Same (({ s with fsm := map } : State τ V Q E maxDegree).noteHeld task o r) := by
  unfold State.noteHeld
  split
  · split_ifs <;> exact ⟨rfl, rfl⟩
  · exact ⟨rfl, rfl⟩
  · exact ⟨rfl, rfl⟩

variable {s}

theorem fsm_step (settings : Settings V Q) (o : Fsm.Op) {r : o.Res}
    (step : exec settings fails task (.fsm o) s = some (s', r)) :
    Fsm.exec fails task o s.fsm = some (s'.fsm, r) ∧ s.Same s' := by
  obtain ⟨⟨map, r'⟩, ran, same⟩ := Option.map_eq_some_iff.mp step
  obtain ⟨rfl, rfl⟩ := Prod.mk.inj same
  have noted := s.noteHeld_same map task o r'
  exact ⟨by rw [ran, noted.1], noted.2⟩

/-- A run of the free space map inside the provider. -/
theorem of_fsm_runs {code : Fsm.Code α} {value : α}
    (run : Runs (exec settings fails) task (fsm code) s value s') :
    Runs (Fsm.exec fails) task code s.fsm value s'.fsm ∧ s.Same s' :=
  Runs.of_lift State.fsm State.Same .refl .trans (fun _ _ o _ step => fsm_step settings o step) run

theorem fsm_runs (settings : Settings V Q) {code : Fsm.Code α} {value : α} {map : Fsm.State τ}
    (run : Runs (Fsm.exec fails) task code s.fsm value map) :
    ∃ s', s'.fsm = map ∧ s.Same s' ∧ Runs (exec settings fails) task (fsm code) s value s' := by
  refine Runs.lift State.fsm State.Same .refl .trans ?_ run rfl
  intro s o part r step
  have noted := s.noteHeld_same part task o r
  exact ⟨_, r, Option.map_eq_some_iff.mpr ⟨_, step, rfl⟩, noted.1, rfl, noted.2⟩

/-! ## What the calls do to the free space map -/

/-- The protocol of the free space map for the code of the provider. -/
def protocol (V Q E : Type) (maxDegree : ℕ) (reliable : Prop) :
    Protocol (interface V Q E maxDegree) Panic Fsm.Token where
  pre token
    | .fsm o => token.pre reliable o
    | _ => True
  post token o r token' :=
    match o, r with
    | .fsm o, r => token.post reliable o r token'
    | _, _ => token' = token
  mayPanic _ _ := True

variable {reliable : Prop} {token : Fsm.Token}

omit [DecidableEq τ] [DecidableEq E] in
/-- A callback fails without effect, or does its update. -/
theorem callback_cases {update : State τ V Q E maxDegree → State τ V Q E maxDegree × Bool} {r : Bool}
    (step : callback fails s update = some (s', r)) :
    fails s.fsm.clock = true ∧ s' = s.tick ∧ r = false ∨
      fails s.fsm.clock = false ∧ s' = (update s.tick).1 ∧ r = (update s.tick).2 := by
  have same := Option.some.inj step
  split_ifs at same with fault
  · obtain ⟨rfl, rfl⟩ := Prod.mk.inj same
    exact .inl ⟨fault, rfl, rfl⟩
  · exact .inr ⟨eq_false_of_ne_true fault, by rw [same], by rw [same]⟩

/-- Any other operation makes a callback or leaves the free space map alone. -/
theorem exec_fsm {o : Op V Q E maxDegree} {r : o.Res} (other : ∀ p, o ≠ .fsm p)
    (step : exec settings fails task o s = some (s', r)) :
    s'.fsm = s.fsm ∨ s'.fsm = s.fsm.tick := by
  cases o with
  | fsm p => exact absurd rfl (other p)
  | readVector | readQuantized | readNeighbors =>
    cases step
    exact .inr rfl
  | readIntMap | train =>
    simp only [exec] at step
    split at step <;> cases step <;>
      first | exact .inl rfl | exact .inr rfl
  | tryLockTraining | startSetting =>
    simp only [exec] at step
    split_ifs at step <;> cases step <;> exact .inl rfl
  | loadAllQuantized | storeAllQuantized | isTrained | compress | unlockTraining | fetchAddBackfills
  | loadStartPoint | storeStartPoint | storeStartPointQuant | loadNeighborCache | storeNeighborCache
  | setQuantizerReady | loadIndexState | storeIndexState =>
    cases step
    exact .inl rfl
  | _ =>
    simp only [exec] at step
    obtain ⟨-, rfl, -⟩ | ⟨-, rfl, -⟩ := callback_cases step <;> exact .inr rfl

theorem protocol_sound (settings : Settings V Q) (faults : reliable → ∀ n, fails n = false) :
    (protocol V Q E maxDegree reliable).Sound (exec settings fails)
      fun (s : State τ V Q E maxDegree) tokens => Fsm.Inv reliable s.fsm tokens where
  step := by
    intro tokens s s' task o r inv pre step
    by_cases other : ∀ p, o ≠ .fsm p
    · refine ⟨tokens task, ?_, ?_⟩
      · cases o with
        | fsm p => exact absurd rfl (other p)
        | _ => rfl
      · rw [update_eq_self]
        obtain same | ticked := exec_fsm other step
        · rwa [same]
        · rw [ticked]
          exact inv.tick
    · obtain ⟨p, rfl⟩ : ∃ p, o = .fsm p := by simpa using other
      exact (Fsm.protocol_sound faults).step inv pre (fsm_step settings p step).1

omit [DecidableEq E] in
theorem fsm_wp {code : Fsm.Code α} {R : Fsm.Token → α → Prop}
    (run : (Fsm.protocol reliable).wp token code R) :
    (protocol V Q E maxDegree reliable).wp token (fsm code) R := by
  refine wp_mono (wp_lift (fun token wide => token = wide)
    ?_ (fun _ _ _ _ _ => trivial) rfl run) ?_
  · rintro token _ o rfl pre
    exact ⟨pre, fun r wide' post => ⟨wide', post, rfl⟩⟩
  · rintro _ value ⟨token', rfl, holds⟩
    exact holds

/-- Operations that leave the token alone. -/
def Op.Plain : Op V Q E maxDegree → Prop
  | .fsm .loadTotalUsed => True
  | .fsm _ => False
  | _ => True

/-- The operations that tell the caller to train the quantizer. -/
def Op.ForReady : Op V Q E maxDegree → Prop
  | .fsm .loadTotalUsed | .isTrained | .setQuantizerReady => True
  | _ => False

omit [DecidableEq E] in
theorem Op.ForReady.plain (o : Op V Q E maxDegree) (ready : o.ForReady) : o.Plain := by
  cases o with
  | fsm p =>
    cases p with
    | loadTotalUsed => trivial
    | _ => exact ready.elim
  | _ => trivial

omit [DecidableEq E] in
theorem wp_of_plain {code : Code V Q E maxDegree α} (calls : code.Calls Op.Plain) :
    (protocol V Q E maxDegree reliable).wp token code fun token' _ => token' = token := by
  refine wp_of_calls (fun o plain => ?_) (fun _ => trivial) calls
  cases o with
  | fsm o =>
    cases o with
    | loadTotalUsed => exact ⟨trivial, fun _ _ post => post⟩
    | _ => exact plain.elim
  | _ => exact ⟨trivial, fun _ _ post => post⟩

omit [DecidableEq E] in
theorem dropGuard_wp {guard : ReuseGuard} (calm : token.Calm (some ()) (some guard.id)) :
    (protocol V Q E maxDegree reliable).wp token (dropGuard guard) fun token' _ =>
      token'.Calm none none := by
  refine wp_op calm.owes_eq ?_
  rintro _ _ rfl
  refine wp_op_iff.mpr ⟨calm.barrier_eq, ?_⟩
  rintro _ _ rfl
  exact { calm with barrier_eq := rfl, owes_eq := rfl }

omit [DecidableEq E] in
/-- The end of a call with a guard. -/
theorem dropGuard_ret_wp {guard : ReuseGuard} (value : α)
    (calm : token.Calm (some ()) (some guard.id)) :
    (protocol V Q E maxDegree reliable).wp token ((dropGuard guard).bind fun _ => .ret value)
      fun token' _ => token'.Calm none none :=
  wp_seq (dropGuard_wp calm) fun _ _ calm => wp_ret calm

/-! ### Code outside the free space map -/

section Calls

variable (settings)

omit [DecidableEq E]

theorem isQuantized_calls :
    (isQuantized settings : Code V Q E maxDegree Bool).Calls Op.Plain := by
  unfold isQuantized
  cases settings.quantizer with
  | none => trivial
  | some quantizer => exact ⟨trivial, fun _ => trivial⟩

theorem fillCaches_calls (v : V) (neighbors : List ℕ) :
    (fillCaches v neighbors : Code V Q E maxDegree _).Calls Op.Plain :=
  ⟨trivial, fun _ => ⟨trivial, fun _ => trivial⟩⟩

theorem loadStartPoint_calls (v : V) :
    (loadStartPoint settings v : Code V Q E maxDegree _).Calls Op.Plain := by
  refine ⟨trivial, fun row : Option (Row maxDegree) => ?_⟩
  cases row with
  | none => trivial
  | some row =>
    refine (isQuantized_calls settings).bind fun quantized => ?_
    cases quantized with
    | false => exact fillCaches_calls v row.neighbors
    | true =>
      refine ⟨trivial, fun quant : Option Q => ?_⟩
      cases quant with
      | none => trivial
      | some quant => exact ⟨trivial, fun _ => fillCaches_calls v row.neighbors⟩

theorem writeRow_calls (point : V) : (writeRow point : Code V Q E maxDegree _).Calls Op.Plain := by
  refine ⟨trivial, fun written : Bool => ?_⟩
  cases written with
  | false => trivial
  | true => exact fillCaches_calls point []

theorem writeStartPoint_calls (point : V) :
    (writeStartPoint settings point : Code V Q E maxDegree _).Calls Op.Plain := by
  refine ⟨trivial, fun written : Bool => ?_⟩
  cases written with
  | false => trivial
  | true =>
    refine (isQuantized_calls settings).bind fun quantized => ?_
    cases quantized with
    | false => exact writeRow_calls point
    | true =>
      refine ⟨trivial, fun quant : Option Q => ?_⟩
      cases quant with
      | none => trivial
      | some quant =>
        refine ⟨trivial, fun written : Bool => ?_⟩
        cases written with
        | false => trivial
        | true => exact ⟨trivial, fun _ => writeRow_calls point⟩

theorem noteReady_calls (guard : ReuseGuard) :
    (noteReady settings guard : Code V Q E maxDegree _).Calls Op.ForReady := by
  unfold noteReady
  cases settings.quantizer with
  | none => trivial
  | some quantizer =>
    split_ifs
    · trivial
    · refine ⟨trivial, fun trained : Bool => ?_⟩
      cases trained with
      | true => trivial
      | false =>
        refine ⟨trivial, fun total : BitVec 64 => ?_⟩
        dsimp only [bind_ret]
        split_ifs
        · exact ⟨trivial, fun _ => trivial⟩
        · trivial

theorem insertMaps_calls (id : ℕ) (external : E) :
    (insertMaps id external : Code V Q E maxDegree _).Calls Op.Plain := by
  refine ⟨trivial, fun written : Bool => ?_⟩
  cases written with
  | false => trivial
  | true => exact ⟨trivial, fun _ => trivial⟩

theorem insert_calls (guard : ReuseGuard) (external : E) (element : V) :
    (insert settings guard external element : Code V Q E maxDegree _).Calls Op.Plain := by
  refine ⟨trivial, fun written : Bool => ?_⟩
  cases written with
  | false => trivial
  | true =>
    dsimp only [bind_ret]
    rw [if_neg nofun]
    split_ifs
    · refine ⟨trivial, fun quant : Option Q => ?_⟩
      cases quant with
      | none => trivial
      | some quant =>
        refine ⟨trivial, fun written : Bool => ?_⟩
        cases written with
        | false => trivial
        | true => exact insertMaps_calls guard.id external
    · exact insertMaps_calls guard.id external

end Calls

/-! ### Calls -/

omit [DecidableEq E] in
theorem maybeSetStartPoint_wp (settings : Settings V Q) (point : V) (calm : token.Calm none none) :
    (protocol V Q E maxDegree reliable).wp token (maybeSetStartPoint settings point) fun token' _ =>
      token'.Calm none none := by
  refine wp_op trivial ?_
  rintro (stored : Option V) _ rfl
  cases stored with
  | some v =>
    refine wp_mono (wp_of_plain (loadStartPoint_calls settings v)) ?_
    rintro _ _ rfl
    exact calm
  | none =>
    refine wp_seq (fsm_wp (Fsm.nextId_wp calm)) ?_
    rintro token (error | guard) calm
    · exact wp_ret calm
    · dsimp only
      split_ifs with other
      · refine wp_seq (fsm_wp (Fsm.markFree_wp guard.id calm)) ?_
        rintro token (error | _) calm <;> exact dropGuard_ret_wp _ calm
      · refine wp_seq (wp_of_plain (writeStartPoint_calls settings point)) ?_
        rintro _ res rfl
        exact dropGuard_ret_wp res calm

omit [DecidableEq E] in
theorem setElement_wp (settings : Settings V Q) (external : E) (element : V)
    (calm : token.Calm none none) :
    (protocol V Q E maxDegree reliable).wp token (setElement settings external element)
      fun token' _ => token'.Calm none none := by
  refine wp_seq (fsm_wp (Fsm.nextId_wp calm)) ?_
  rintro token (error | guard) calm
  · exact wp_ret calm
  · refine wp_seq (wp_of_plain ((noteReady_calls settings guard).mono Op.ForReady.plain)) ?_
    rintro _ _ rfl
    refine wp_seq (wp_of_plain (insert_calls settings guard external element)) ?_
    rintro _ (error | _) rfl
    · refine wp_seq (fsm_wp (Fsm.markFree_wp guard.id calm)) ?_
      rintro token (error | _) calm <;> exact dropGuard_ret_wp _ calm
    · exact dropGuard_ret_wp _ calm

omit [DecidableEq E] in
theorem delete_wp (external : E) (calm : token.Calm none none) :
    (protocol V Q E maxDegree reliable).wp token (delete external : Code V Q E maxDegree _)
      fun token' _ => token'.Calm none none := by
  refine wp_op trivial ?_
  rintro (found : Option ℕ) _ rfl
  cases found with
  | none => exact wp_ret calm
  | some id =>
    refine wp_op trivial ?_
    rintro _ _ rfl
    refine wp_op trivial ?_
    rintro _ _ rfl
    refine wp_op trivial ?_
    rintro _ _ rfl
    refine wp_op trivial ?_
    rintro _ _ rfl
    refine wp_op trivial ?_
    rintro _ _ rfl
    refine wp_seq (fsm_wp (Fsm.markFree_wp id calm)) ?_
    rintro token (error | _) calm <;> exact wp_ret calm

/-- A call that ends leaves the free space map sound and at rest. -/
theorem rest_of_runs {code : Code V Q E maxDegree α} {value : α}
    (faults : reliable → ∀ n, fails n = false) (sound : s.fsm.Sound reliable) (rest : s.fsm.AtRest)
    (follows : ∀ token : Token, token.Calm none none →
      (protocol V Q E maxDegree reliable).wp token code fun token' _ => token'.Calm none none)
    (run : Runs (exec settings fails) task code s value s') :
    s'.fsm.Sound reliable ∧ s'.fsm.AtRest := by
  obtain ⟨token', calm, inv⟩ := (protocol_sound settings faults).runs (.of_rest sound rest)
    (follows _ Token.fresh_calm) run
  refine ⟨inv.sound, inv.atRest fun other => ?_⟩
  by_cases here : other = task
  · rw [here, update_self]
    exact calm
  · rw [update_of_ne here]
    exact Token.fresh_calm

end DiskAnn.Garnet.Provider
