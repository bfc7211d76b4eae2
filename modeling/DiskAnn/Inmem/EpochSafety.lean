import DiskAnn.Inmem.EpochProtocol

/-! # Epoch reclamation is safe

Any number of tasks hold guards, retire ids under them, advance the epoch and pop what the drain
offers, interleaved at every atomic access. In every configuration they reach, whatever a drain
is about to pop is no longer protected by any guard that was live when it was retired.
-/

namespace DiskAnn.Inmem.Epoch

open Machine Protocol

section Client

variable {n : ℕ} {token : Token n}

theorem retireAll_wp {g : Guard n} (ids : List UInt32) (of : g.Of token) :
    (protocol n).wp token (g.retireAll ids) fun token' _ => g.Of token' := by
  induction ids with
  | nil => exact wp_ret of
  | cons id rest ih =>
    obtain ⟨stored, epoch, guarding, retire⟩ := of
    refine wp_op ⟨g.slot, stored, epoch, guarding, retire⟩ ?_
    rintro _ token' rfl
    exact ih

theorem popUpTo_wp {d : Drain} (limit : ℕ) (of : d.Of token) :
    (protocol n).wp token (d.popUpTo limit) fun token' _ => d.Of token' := by
  induction limit with
  | zero => exact wp_ret of
  | succ limit ih =>
    refine wp_op of ?_
    rintro _ token' rfl
    refine wp_op of ?_
    rintro (next : Option UInt32) token' rfl
    cases next with
    | none => exact wp_ret of
    | some id => exact ih

theorem request_wp [NeZero n] (request : Request) (free : token.free = true) :
    (protocol n).wp token request.code fun token' _ => token'.free = true := by
  cases request with
  | guard ids =>
    refine wp_seq (wp_of_restrict (guard_wp (fun _ => True) free)) ?_
    rintro token' (_ | g) of
    · exact wp_ret of
    · refine wp_seq (retireAll_wp ids of) ?_
      rintro token' _ ⟨stored, epoch, guarding, -⟩
      refine wp_op_iff.mpr ⟨⟨stored, epoch, guarding⟩, ?_⟩
      rintro _ token' rfl
      rfl
  | drain pops =>
    refine wp_seq (wp_of_restrict (tryAdvance_wp free)) ?_
    rintro token' (_ | d) of
    · exact wp_ret of
    · refine wp_seq (popUpTo_wp pops of) ?_
      rintro token' _ ⟨current, rfl, -⟩
      refine wp_op_iff.mpr ⟨rfl, ?_⟩
      rintro _ token' rfl
      rfl

theorem client_wp [NeZero n] (requests : List Request) (free : token.free = true) :
    (protocol n).wp token (client requests) fun token' _ => token'.free = true := by
  induction requests generalizing token with
  | nil => exact wp_ret free
  | cons request rest ih =>
    exact wp_seq (request_wp request free) fun token' _ free => ih free

end Client

section Safety

variable {n : ℕ} [NeZero n] {τ : Type} [DecidableEq τ] {requests : τ → List Request}
  {c : Config (interface n) Panic τ (Registry n)}

theorem explained (reachable : Config.Reachable exec (start requests) c) :
    ∃ tokens, (protocol n).Explains Inv (fun token _ => token.free = true) c tokens :=
  protocol_sound.reachable
    ⟨fun _ => .idle, inv_withCapacity, fun task => client_wp (requests task) rfl⟩ reachable

/-- A retired id is popped only after every guard that was live at its push has been dropped, at
most once for each push, and a live drain's queue is never pushed to. -/
theorem reclamation_safe (reachable : Config.Reachable exec (start requests) c) :
    (∀ task q next entry rest, c.code task = .call (.pop q) next →
      c.shared.retiring q = entry :: rest → ∀ slot g, entry.waiting slot = some g →
        c.shared.live slot ≠ some g) ∧
    (c.shared.popped.map (·.number)).Nodup ∧
    (∀ entry ∈ c.shared.popped, entry.number < c.shared.pushes) ∧
    ∀ q, c.shared.draining = some q → ∀ task q' id next,
      c.code task = .call (.push q' id) next → q' ≠ q := by
  obtain ⟨tokens, explains⟩ := explained reachable
  refine ⟨?_, explains.1.popped_numbers.1, explains.1.popped_numbers.2, ?_⟩
  · intro task q next entry rest pops head slot g waiting
    obtain ⟨current, draining, rfl⟩ := explains.pre pops
    exact explains.1.popped_after_dropped draining (by simp [head]) waiting
  · intro q alive task q' id next pushes
    obtain ⟨slot, stored, epoch, guarding, rfl⟩ := explains.pre pushes
    exact explains.1.retires_elsewhere guarding alive

/-- A guard in slot 0 is live while another task retires id 7; when the third drain is about to pop
the id, that guard has been dropped. -/
theorem reclamation_safe_retire_then_pop :
    ∃ c next entry, Config.Reachable exec (start (n := 2) fun task =>
        if task then [.guard [7], .drain 0, .drain 0, .drain 1] else [.guard []]) c ∧
      c.code true = .call (.pop 1) next ∧ c.shared.retiring 1 = [entry] ∧ entry.id = 7 ∧
      entry.waiting 0 = some 0 ∧ c.shared.live 0 ≠ some 0 := by
  have reachable := Config.Reachable.of_run exec (start (n := 2) fun task =>
      if task then [.guard [7], .drain 0, .drain 0, .drain 1] else [.guard []])
    (List.replicate 6 false ++ List.replicate 8 true ++ false :: List.replicate 18 true) rfl
  exact ⟨_, _, _, reachable, rfl, rfl, rfl, rfl,
    (reclamation_safe reachable).1 true 1 _ _ [] rfl rfl 0 0 rfl⟩

/-- No retirement is lost or made twice: each is in one queue or popped. Ids go to the queue of the
current epoch or of the last one, no two tasks drop a guard of one slot, and only one task drains. -/
theorem retirements_kept (reachable : Config.Reachable exec (start requests) c) :
    (∀ k < c.shared.pushes, (c.shared.popped.map (·.number)).count k +
      ∑ q, ((c.shared.retiring q).map (·.number)).count k = 1) ∧
    (∀ task q id next, c.code task = .call (.push q id) next →
      q = queue c.shared.epoch ∨ q = queue (c.shared.epoch - 1)) ∧
    (∀ task task' slot next next', c.code task = .call (.dropGuard slot) next →
      c.code task' = .call (.dropGuard slot) next' → task = task') ∧
    ∀ task task' q q' next next', c.code task = .call (.pop q) next →
      c.code task' = .call (.pop q') next' → task = task' := by
  obtain ⟨tokens, explains⟩ := explained reachable
  have inv := explains.1
  refine ⟨fun k issued => (inv.numbered k).trans (if_pos issued), ?_, ?_, ?_⟩
  · intro task q id next pushes
    obtain ⟨slot, stored, epoch, guarding, rfl⟩ := explains.pre pushes
    obtain ⟨-, -, -, behind, near, -⟩ := inv.consistent.each_of_eq guarding
    obtain same | same : epoch = c.shared.epoch ∨ epoch = c.shared.epoch - 1 := by omega
    · exact .inl (congrArg queue same)
    · exact .inr (congrArg queue same)
  · intro task task' slot next next' drops drops'
    obtain ⟨stored, epoch, guarding⟩ := explains.pre drops
    obtain ⟨stored', epoch', guarding'⟩ := explains.pre drops'
    by_contra ne
    exact (inv.consistent.pair task task' ne).1 slot (by rw [guarding]; rfl) (by rw [guarding']; rfl)
  · intro task task' q q' next next' pops pops'
    obtain ⟨current, draining, -⟩ := explains.pre pops
    obtain ⟨current', draining', -⟩ := explains.pre pops'
    by_contra ne
    have alone := (inv.consistent.pair task task' ne).2.1 (by rw [draining]; rfl)
    simp [draining', Token.drains] at alone

/-- After id 7 is retired it waits in queue 1. -/
theorem retirements_kept_waiting :
    ∃ c, Config.Reachable exec (start (n := 1) fun _ : Unit => [.guard [7]]) c ∧
      c.shared.pushes = 1 ∧ ((c.shared.retiring 1).map (·.id)) = [7] ∧
      (c.shared.popped.map (·.number)).count 0 +
        ∑ q, ((c.shared.retiring q).map (·.number)).count 0 = 1 := by
  have reachable := Config.Reachable.of_run exec (start (n := 1) fun _ : Unit => [.guard [7]])
    (List.replicate 7 ()) rfl
  exact ⟨_, reachable, rfl, rfl, (retirements_kept reachable).1 0 (by decide)⟩

end Safety

end DiskAnn.Inmem.Epoch
