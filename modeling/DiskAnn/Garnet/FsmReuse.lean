import DiskAnn.Garnet.FsmSolo

/-! # When freed ids are reused

A refill that found nothing clears `has_free_ids` after its scan. An id that is freed behind the scan
is lost to reuse if its `mark_free` set the flag before: the flag stays clear while the id is free.
Where every clear of the flag meets only free ids whose `mark_free` has yet to set it, no freed id is
lost.
-/

namespace DiskAnn.Garnet.Fsm

open Machine Protocol Prog State

variable {τ : Type} {s s' : State τ} {tokens : τ → Token} {task : τ}

def Op.clearsFlag : Op → Bool
  | .storeHasFreeIds value => !value
  | _ => false

/-- Whenever the flag is cleared, every free id below the counter is still to be announced. -/
def ClearsRightly (_ : τ) (o : Op) (s : State τ) : Prop :=
  o.clearsFlag = true → ∀ id < s.counter, s.used id = false → id ∈ s.unannounced.map Prod.snd

instance (task : τ) (o : Op) (s : State τ) : Decidable (ClearsRightly task o s) :=
  inferInstanceAs (Decidable (_ → _))

/-- Ids are reused, and every free one is announced by the flag or about to be. -/
structure State.Reusing (s : State τ) : Prop where
  enabled : s.reuseEnabled = true
  announced : ∀ id < s.counter, s.used id = false →
    s.hasFreeIds = true ∨ id ∈ s.unannounced.map Prod.snd

variable (reusing : s.Reusing)
include reusing

theorem State.Reusing.same (enabled : s'.reuseEnabled = s.reuseEnabled)
    (counter : s'.counter = s.counter) (used : ∀ id, s'.used id = s.used id)
    (flag : s'.hasFreeIds = s.hasFreeIds) (unannounced : s'.unannounced = s.unannounced) :
    s'.Reusing where
  enabled := enabled.trans reusing.enabled
  announced := fun id below free => by
    rw [flag, unannounced]
    exact reusing.announced id (counter ▸ below) ((used id).symm.trans free)

/-- An id that is marked free is about to be announced. -/
theorem State.Reusing.rmw (id : ℕ) (used : Bool) :
    (s.rmw task id used).1.Reusing := by
  have bits := s.used_rmw task id used
  by_cases same : s.used id = used
  · rw [rmw_of_same same] at bits ⊢
    refine reusing.same rfl rfl (fun other => ?_) rfl rfl
    rw [bits]
    split_ifs with here
    · rw [here, same]
    · rfl
  · rw [rmw_of_ne same] at bits ⊢
    cases used with
    | true =>
      refine ⟨reusing.enabled, fun other below free => reusing.announced other below ?_⟩
      rw [bits] at free
      split_ifs at free
      exact free
    | false =>
      refine ⟨reusing.enabled, fun other below free => ?_⟩
      change _ ∨ other ∈ (s.unannounced ++ [(task, id)]).map Prod.snd
      rw [List.map_append, List.mem_append]
      rw [bits] at free
      split_ifs at free with here
      · exact .inr (.inr (by simp [here]))
      · exact (reusing.announced other below free).imp_right .inl

/-- A minted id comes under the counter after it is marked. -/
theorem State.Reusing.unlockMinter (inv : Inv True s tokens)
    (pre : (tokens task).pre True .unlockMinter) : Reusing { s with minterLock := none } := by
  obtain ⟨id, marked⟩ | ⟨unreliable, _⟩ := pre
  · have stage := (inv.consistent.each task).minting
    rw [marked] at stage
    obtain ⟨lock, next, set⟩ := stage
    refine ⟨reusing.enabled, fun other below free => ?_⟩
    replace below : other < id + 1 := next ▸ below
    obtain rfl | older := Nat.eq_or_lt_of_le (Nat.le_of_lt_succ below)
    · cases set.symm.trans free
    · exact reusing.announced other (counter_of_locked lock ▸ older) free
  · exact absurd trivial unreliable

variable [DecidableEq τ]

theorem State.Reusing.storeHasFreeIds {value : Bool}
    (rightly : ClearsRightly task (.storeHasFreeIds value) s) :
    (s.storeHasFreeIds task value).Reusing where
  enabled := reusing.enabled
  announced := fun id below free => by
    cases value with
    | true => exact .inl rfl
    | false => exact .inr (rightly rfl id below free)

theorem State.Reusing.step {o : Op} {r : o.Res} (inv : Inv True s tokens)
    (pre : (tokens task).pre True o) (rightly : ClearsRightly task o s)
    (step : exec (fun _ => false) task o s = some (s', r)) : s'.Reusing := by
  cases o with
  | storeHasFreeIds value =>
    cases step
    exact reusing.storeHasFreeIds rightly
  | rmw id used =>
    cases step
    exact Reusing.rmw (s := s.tick) { reusing with } id used
  | unlockMinter =>
    cases step
    exact reusing.unlockMinter inv pre
  | enableReuse =>
    cases step
    exact { reusing with enabled := rfl }
  | writeBlock blockId =>
    cases step
    obtain ⟨id, max, bumped, _, block⟩ := pre
    have stage := (inv.consistent.each task).minting
    rw [bumped] at stage
    obtain ⟨_, minter, _⟩ := stage
    refine reusing.same rfl rfl (inv.tick.sound.used_newBlock ?_) rfl rfl
    rw [block, show s.tick.idMinter = s.idMinter from rfl, minter]
  | lockMinter =>
    simp only [exec] at step
    split_ifs at step with locked
    cases step
    have counter := counter_of_unlocked (Option.not_isSome_iff_eq_none.mp locked)
    exact reusing.same rfl counter.symm (fun _ => rfl) rfl rfl
  | storeNextId nextId =>
    cases step
    obtain ⟨m, locked, _⟩ := pre
    have stage := (inv.consistent.each task).minting
    rw [locked] at stage
    refine reusing.same rfl ?_ (fun _ => rfl) rfl rfl
    rw [counter_of_locked stage.1]
    exact counter_of_locked stage.1
  | storeMaxBlock maxBlock =>
    cases step
    exact reusing.same rfl rfl (fun _ => rfl) rfl rfl
  | push id =>
    simp only [exec] at step
    split_ifs at step
    all_goals
      cases step
      exact { reusing with }
  | returns event =>
    cases step
    rcases event with (_ | _) | _ <;> exact { reusing with }
  | readMinter | lockRefill | enableQuantization =>
    simp only [exec] at step
    split_ifs at step
    cases step
    exact { reusing with }
  | _ =>
    cases step
    exact { reusing with }

omit reusing

theorem reusing_sound : (protocol True).Sound ((exec (τ := τ) fun _ => false).when ClearsRightly)
    fun s tokens => Inv True s tokens ∧ s.Reusing := by
  constructor
  rintro tokens s s' task o r ⟨inv, reusing⟩ pre step
  obtain ⟨rightly, step⟩ := Semantics.when_eq_some.mp step
  obtain ⟨token', post, inv'⟩ := (protocol_sound fun _ _ => rfl).step inv pre step
  exact ⟨token', post, inv', reusing.step inv pre rightly step⟩

/-! ## Runs -/

omit [DecidableEq τ] in
/-- While a free id lies below the counter, a call that looks for one finds one. -/
theorem State.Sound.reuses_ne_none (sound : s.Sound True) (rest : s.AtRest) (reusing : s.Reusing)
    {id : ℕ} (below : id < s.idMinter.nextId) (free : s.used id = false) :
    s.hasFreeIds = true ∧ s.reuses ≠ none := by
  have flag : s.hasFreeIds = true := by
    have announced := reusing.announced id (counter_of_unlocked rest.unlocked ▸ below) free
    simpa [rest.unannounced] using announced
  refine ⟨flag, fun absent => ?_⟩
  rw [reuses, if_pos ⟨reusing.enabled, flag⟩, reusable, Option.or_eq_none_iff] at absent
  have inside : id < s.scanned := below.trans_le (sound.room trivial rest.unlocked)
  cases free.symm.trans (leastFree_eq_none.mp absent.2 id inside below)

variable {requests : τ → List Request} {c : Config interface Panic τ (State τ)}

end DiskAnn.Garnet.Fsm
