import DiskAnn.Machine.Prog

/-! # Protocols and weakest preconditions for concurrent programs

A `Protocol` gives every task a token: the token says which operations the task may call, and a
call moves the task to a next token. `Protocol.wp` is the weakest precondition of a task's code in
terms of its own token alone. The shared part of the argument is one invariant over the shared
state and the tokens of all tasks (`Sound`), checked one atomic operation at a time; `Sound.reachable`
joins the two for every interleaving.
-/

namespace DiskAnn.Machine

open Function Prog

/-- What a token lets a task call, where the call takes it, and when it may panic. -/
structure Protocol (I : Interface) (P T : Type) where
  pre : T → I.Op → Prop
  post : T → (o : I.Op) → I.Res o → T → Prop
  mayPanic : T → P → Prop

namespace Protocol

variable {I J : Interface} {P R T U τ σ : Type} {α β γ : Type} (L : Protocol I P T)

/-- The code follows the protocol for `n` steps, and ends in `Q` if it ends within them. -/
def wpn (L : Protocol I P T) : ℕ → T → {α : Type} → Prog I P α → (T → α → Prop) → Prop
  | 0, _, _, _, _ => True
  | _ + 1, token, _, .ret value, Q => Q token value
  | n + 1, token, _, .call o next, Q =>
      L.pre token o ∧ ∀ r token', L.post token o r token' → L.wpn n token' (next r) Q
  | _ + 1, token, _, .panic reason, _ => L.mayPanic token reason
  | n + 1, token, _, .loop body start next, Q =>
      L.wpn n token ((body start).bind (Prog.unroll body next)) Q

/-- The code follows the protocol from `token` on, and ends in `Q` if it ends. -/
def wp (token : T) (p : Prog I P α) (Q : T → α → Prop) : Prop := ∀ n, L.wpn n token p Q

variable {L} {n : ℕ} {token token' : T} {p : Prog I P α} {fits fits' : T → Prop} {apart : T → T → Prop}
  {tokens : τ → T} {task : τ}

theorem wpn_mono {Q Q' : T → α → Prop} (weaker : ∀ token value, Q token value → Q' token value)
    (run : L.wpn n token p Q) : L.wpn n token p Q' := by
  induction n generalizing token p with
  | zero => trivial
  | succ n ih =>
    cases p with
    | ret value => exact weaker _ _ run
    | call o next => exact ⟨run.1, fun r token' post => ih (run.2 r token' post)⟩
    | panic reason => exact run
    | loop body start next => exact ih run

theorem wpn_of_succ {Q : T → α → Prop} (run : L.wpn (n + 1) token p Q) : L.wpn n token p Q := by
  induction n generalizing token p with
  | zero => trivial
  | succ n ih =>
    cases p with
    | ret value => exact run
    | call o next => exact ⟨run.1, fun r token' post => ih (run.2 r token' post)⟩
    | panic reason => exact run
    | loop body start next => exact ih run

theorem wpn_bind {rest : α → Prog I P β} {Q : T → β → Prop}
    (run : L.wpn n token p fun token' value => L.wpn n token' (rest value) Q) :
    L.wpn n token (p.bind rest) Q := by
  induction n generalizing token α with
  | zero => trivial
  | succ n ih =>
    cases p with
    | ret value => exact run
    | call o next =>
      exact ⟨run.1, fun r token' post =>
        ih (wpn_mono (fun _ _ => wpn_of_succ) (run.2 r token' post))⟩
    | panic reason => exact run
    | loop body start next =>
      change L.wpn n token ((body start).bind (unroll body _)) Q
      rw [← unroll_bind, ← bind_assoc]
      exact ih (wpn_mono (fun _ _ => wpn_of_succ) run)

/-! ## Rules -/

section Rules

variable {token : T} {Q Q' : T → α → Prop} {p : Prog I P α} {o : I.Op}

theorem wp_mono (run : L.wp token p Q) (weaker : ∀ token value, Q token value → Q' token value) :
    L.wp token p Q' :=
  fun n => wpn_mono weaker (run n)

@[simp] theorem wp_ret_iff {value : α} : L.wp token (.ret value) Q ↔ Q token value :=
  ⟨fun run => run 1, fun post n => by cases n <;> trivial⟩

theorem wp_ret {value : α} (holds : Q token value) : L.wp token (.ret value) Q := wp_ret_iff.mpr holds

@[simp] theorem wp_panic_iff {reason : P} :
    L.wp token (.panic reason) Q ↔ L.mayPanic token reason :=
  ⟨fun run => run 1, fun may n => by cases n <;> trivial⟩

theorem wp_call_iff {next : I.Res o → Prog I P α} :
    L.wp token (.call o next) Q ↔
      L.pre token o ∧ ∀ r token', L.post token o r token' → L.wp token' (next r) Q := by
  constructor
  · exact fun run => ⟨(run 1).1, fun r token' post n => (run (n + 1)).2 r token' post⟩
  · refine fun ⟨pre, rest⟩ n => ?_
    cases n with
    | zero => trivial
    | succ n => exact ⟨pre, fun r token' post => rest r token' post n⟩

theorem wp_loop_iff {body : β → Prog I P (β ⊕ γ)} {start : β} {next : γ → Prog I P α} :
    L.wp token (.loop body start next) Q ↔
      L.wp token ((body start).bind (unroll body next)) Q := by
  constructor
  · exact fun run n => run (n + 1)
  · refine fun run n => ?_
    cases n with
    | zero => trivial
    | succ n => exact run n

theorem wp_bind {p : Prog I P β} {rest : β → Prog I P α}
    (run : L.wp token p fun token' value => L.wp token' (rest value) Q) :
    L.wp token (p.bind rest) Q :=
  fun n => wpn_bind (wpn_mono (fun _ _ rest => rest n) (run n))

/-- One piece of code after the other. -/
theorem wp_seq {p : Prog I P β} {rest : β → Prog I P α} {R : T → β → Prop} (first : L.wp token p R)
    (second : ∀ token value, R token value → L.wp token (rest value) Q) : L.wp token (p.bind rest) Q :=
  wp_bind (wp_mono first second)

theorem wp_op_iff {R : T → I.Res o → Prop} :
    L.wp token (op o) R ↔
      L.pre token o ∧ ∀ r token', L.post token o r token' → R token' r := by
  simp only [op, wp_call_iff, wp_ret_iff]

theorem wp_op {rest : I.Res o → Prog I P α} (pre : L.pre token o)
    (next : ∀ r token', L.post token o r token' → L.wp token' (rest r) Q) :
    L.wp token (op o >>= rest) Q :=
  wp_call_iff.mpr ⟨pre, next⟩

/-- A loop runs safely when every iteration restores `keeps` or leaves in `exits`. -/
theorem wp_repeatUntil {body : β → Prog I P (β ⊕ α)} {start : β} (keeps : T → β → Prop)
    (iteration : ∀ token b, keeps token b →
      L.wp token (body b) fun token' r =>
        match r with
        | .inl again => keeps token' again
        | .inr value => Q token' value)
    (initial : keeps token start) : L.wp token (repeatUntil body start) Q := by
  refine fun n => ?_
  induction n generalizing token start with
  | zero => trivial
  | succ n ih =>
    refine wpn_bind (wpn_mono ?_ (iteration token start initial n))
    intro token' r holds
    cases r with
    | inl again => exact ih holds
    | inr value =>
      have left : L.wp token' (.ret value) Q := wp_ret_iff.mpr holds
      exact left n

/-- Code that follows a protocol over a smaller interface follows one over a larger interface
that simulates it. -/
theorem wp_lift {M : Protocol J R U} {embed : I.Op → J.Op} {answer : ∀ o, J.Res (embed o) → I.Res o}
    {raise : P → R} (view : T → U → Prop)
    (simulates : ∀ token wide o, view token wide → L.pre token o → M.pre wide (embed o) ∧
      ∀ r wide', M.post wide (embed o) r wide' →
        ∃ token', L.post token o (answer o r) token' ∧ view token' wide')
    (panics : ∀ token wide reason, view token wide → L.mayPanic token reason →
      M.mayPanic wide (raise reason)) {wide : U} (related : view token wide) (run : L.wp token p Q) :
    M.wp wide (p.lift embed answer raise) fun wide' value =>
      ∃ token', view token' wide' ∧ Q token' value := by
  refine fun n => ?_
  replace run := run n
  induction n generalizing token p wide with
  | zero => trivial
  | succ n ih =>
    cases p with
    | ret value => exact ⟨token, related, run⟩
    | call o next =>
      obtain ⟨pre, next_wide⟩ := simulates token wide o related run.1
      refine ⟨pre, fun r wide' post => ?_⟩
      obtain ⟨token', post', related'⟩ := next_wide r wide' post
      exact ih related' (run.2 _ token' post')
    | panic reason => exact panics token wide reason related run
    | loop body start next =>
      have unrolled := ih related run
      rw [lift_bind, lift_unroll] at unrolled
      exact unrolled

/-- Code whose calls all leave the token alone ends with the token it started with. -/
theorem wp_of_calls {allowed : I.Op → Prop}
    (steps : ∀ o, allowed o → L.pre token o ∧ ∀ r token', L.post token o r token' → token' = token)
    (panics : ∀ reason, L.mayPanic token reason) (calls : p.Calls allowed) :
    L.wp token p fun token' _ => token' = token := by
  refine fun n => ?_
  induction n generalizing p with
  | zero => trivial
  | succ n ih =>
    cases p with
    | ret value => rfl
    | call o next =>
      refine ⟨(steps o calls.1).1, fun r token' post => ?_⟩
      obtain rfl := (steps o calls.1).2 r token' post
      exact ih (calls.2 r)
    | panic reason => exact panics reason
    | loop body start next =>
      exact ih
        ((calls.1 start).bind (Calls.unroll calls.1 calls.2))

/-- The protocol for code that only makes some of the calls and only panics for some reasons. -/
def restrict (L : Protocol I P T) (allowed : T → I.Op → Prop) (panics : P → Prop) :
    Protocol I P T :=
  { L with
    pre := fun token o => L.pre token o ∧ allowed token o
    mayPanic := fun token reason => L.mayPanic token reason ∧ panics reason }

/-- Tokens that also carry what a monitor has seen of the calls. -/
def track (L : Protocol I P T) (see : U → (o : I.Op) → I.Res o → U) : Protocol I P (T × U) where
  pre token o := L.pre token.1 o
  post token o r token' := L.post token.1 o r token'.1 ∧ token'.2 = see token.2 o r
  mayPanic token reason := L.mayPanic token.1 reason

/-- Code that follows a protocol follows every coarser one over the same calls. -/
theorem wp_coarsen {M : Protocol I P U} (view : T → U)
    (pre : ∀ token o, L.pre token o → M.pre (view token) o)
    (post : ∀ token o r wide', M.post (view token) o r wide' →
      ∃ token', L.post token o r token' ∧ view token' = wide')
    (panics : ∀ token reason, L.mayPanic token reason → M.mayPanic (view token) reason)
    (run : L.wp token p Q) :
    M.wp (view token) p fun wide' value => ∃ token', view token' = wide' ∧ Q token' value := by
  refine fun n => ?_
  replace run := run n
  induction n generalizing token p with
  | zero => trivial
  | succ n ih =>
    cases p with
    | ret value => exact ⟨token, rfl, run⟩
    | call o next =>
      refine ⟨pre _ _ run.1, fun r wide' moved => ?_⟩
      obtain ⟨token', moves, rfl⟩ := post _ _ _ _ moved
      exact ih (run.2 r token' moves)
    | panic reason => exact panics _ _ run
    | loop body start next => exact ih run

theorem wp_of_restrict {allowed : T → I.Op → Prop} {panics : P → Prop}
    (run : (L.restrict allowed panics).wp token p Q) : L.wp token p Q := by
  have coarse := wp_coarsen (L := L.restrict allowed panics) id (fun _ _ pre => pre.1)
    (fun _ _ _ _ moved => ⟨_, moved, rfl⟩) (fun _ _ may => may.1) run
  exact wp_mono coarse fun token' value ⟨_, same, post⟩ => same ▸ post

theorem wp_of_track {see : U → (o : I.Op) → I.Res o → U} {seen : U} {R : T × U → α → Prop}
    (run : (L.track see).wp (token, seen) p R) :
    L.wp token p fun token' value => ∃ seen', R (token', seen') value := by
  have coarse := wp_coarsen (L := L.track see) Prod.fst (fun _ _ pre => pre)
    (fun tracked o r token' moved => ⟨(token', see tracked.2 o r), ⟨moved, rfl⟩, rfl⟩)
    (fun _ _ may => may) run
  exact wp_mono coarse fun _ _ ⟨⟨_, seen'⟩, same, post⟩ => ⟨seen', same ▸ post⟩

end Rules

/-! ## Invariants over the tokens of all tasks -/

/-- Every token satisfies `fits` on its own, and the tokens of two tasks satisfy `apart`. -/
structure Consistent (fits : T → Prop) (apart : T → T → Prop) (tokens : τ → T) : Prop where
  each : ∀ task, fits (tokens task)
  pair : ∀ task other, task ≠ other → apart (tokens task) (tokens other)

variable (consistent : Consistent fits apart tokens)
include consistent

/-- One task moves to a next token. -/
theorem Consistent.replace [DecidableEq τ]
    (own : fits' token')
    (others : ∀ other, other ≠ task →
      fits' (tokens other) ∧ apart token' (tokens other) ∧ apart (tokens other) token') :
    Consistent fits' apart (update tokens task token') := by
  constructor
  · intro other
    by_cases same : other = task
    · subst same
      simpa using own
    · simpa [same] using (others other same).1
  · intro first second ne
    by_cases one : first = task
    · subst one
      simpa [ne.symm] using (others second ne.symm).2.1
    · by_cases two : second = task
      · subst two
        simpa [one] using (others first one).2.2
      · simpa [one, two] using consistent.pair first second ne

/-- One task moves to a next token. The rest only has to be checked for a single other token. -/
theorem Consistent.update [DecidableEq τ] {token : T}
    (now : tokens task = token) (own : fits' token')
    (others : ∀ other, fits other → apart token other → apart other token →
      fits' other ∧ apart token' other ∧ apart other token') :
    Consistent fits' apart (update tokens task token') := by
  subst now
  exact consistent.replace own fun other ne => others _ (consistent.each other)
    (consistent.pair task other ne.symm) (consistent.pair other task ne)

theorem Consistent.each_of_eq {token : T}
    (now : tokens task = token) : fits token :=
  now ▸ consistent.each task

omit consistent

/-- What some task holds, some task still holds after one of them has moved on with it. -/
theorem exists_update [DecidableEq τ] (holds : T → Prop) (some_task : ∃ other, holds (tokens other))
    (keeps : holds (tokens task) → holds token') :
    ∃ other, holds (update tokens task token' other) := by
  obtain ⟨other, held⟩ := some_task
  by_cases same : other = task
  · subst same
    exact ⟨other, by simpa using keeps held⟩
  · exact ⟨other, by simpa [same] using held⟩

/-- A part of the tokens after one task has moved on. -/
theorem update_part {S : Type} [DecidableEq τ] (part : T → S) :
    (fun other => part (update tokens task token' other)) =
      update (fun other => part (tokens other)) task (part token') :=
  comp_update part tokens task token'

/-- The state changes while every task keeps its token. -/
theorem Consistent.mono (consistent : Consistent fits apart tokens)
    (weaker : ∀ token, fits token → fits' token) : Consistent fits' apart tokens :=
  ⟨fun task => weaker _ (consistent.each task), consistent.pair⟩

/-! ## Soundness over all interleavings -/

/-- Every operation the protocol lets a task call keeps the invariant `inv`. -/
structure Sound [DecidableEq τ] (L : Protocol I P T) (sem : Semantics I τ σ)
    (inv : σ → (τ → T) → Prop) : Prop where
  step : ∀ {tokens : τ → T} {s s' : σ} {task : τ} {o : I.Op} {r : I.Res o},
    inv s tokens → L.pre (tokens task) o → sem task o s = some (s', r) →
    ∃ token', L.post (tokens task) o r token' ∧ inv s' (update tokens task token')

section Sound

variable {sem : Semantics I τ σ} {inv : σ → (τ → T) → Prop} {Q : T → Unit → Prop}
  {c : Config I P τ σ} {tokens : τ → T} {task : τ}

/-- The tokens explain a configuration: the invariant holds and every task follows the protocol. -/
def Explains (L : Protocol I P T) (inv : σ → (τ → T) → Prop) (Q : T → Unit → Prop)
    (c : Config I P τ σ) (tokens : τ → T) : Prop :=
  inv c.shared tokens ∧ ∀ task, L.wp (tokens task) (c.code task) Q

variable (explains : L.Explains inv Q c tokens)
include explains

theorem Explains.pre {o : I.Op}
    {next : I.Res o → Prog I P Unit} (shape : c.code task = .call o next) :
    L.pre (tokens task) o := by
  have run := explains.2 task
  rw [shape] at run
  exact (wp_call_iff.mp run).1

theorem Explains.mayPanic {reason : P}
    (shape : c.code task = .panic reason) : L.mayPanic (tokens task) reason := by
  have run := explains.2 task
  rw [shape] at run
  exact wp_panic_iff.mp run

theorem Explains.done (done : c.Done task) :
    Q (tokens task) () := by
  have run := explains.2 task
  rw [done] at run
  exact wp_ret_iff.mp run

variable [DecidableEq τ]

omit explains

theorem Sound.step_explains (sound : L.Sound sem inv) {c' : Config I P τ σ}
    (explains : L.Explains inv Q c tokens) (step : c.step sem task = some c') :
    ∃ token', L.Explains inv Q c' (update tokens task token') := by
  obtain ⟨o, next, s', r, shape, out, rfl⟩ | ⟨β, γ, body, b, next, shape, rfl⟩ :=
    Config.step_cases step
  · have run := explains.2 task
    rw [shape] at run
    obtain ⟨pre, rest⟩ := wp_call_iff.mp run
    obtain ⟨token', post, kept⟩ := sound.step explains.1 pre out
    refine ⟨token', kept, fun other => ?_⟩
    by_cases same : other = task
    · subst same
      simpa using rest r token' post
    · simpa [same] using explains.2 other
  · refine ⟨tokens task, ?_, fun other => ?_⟩
    · rw [update_eq_self]
      exact explains.1
    · by_cases same : other = task
      · subst same
        have run := explains.2 other
        rw [shape] at run
        simpa using wp_loop_iff.mp run
      · simpa [same] using explains.2 other

/-- Every configuration an interleaving reaches is explained by some tokens. -/
theorem Sound.reachable (sound : L.Sound sem inv) {start : Config I P τ σ}
    (initial : ∃ tokens, L.Explains inv Q start tokens) (reachable : Config.Reachable sem start c) :
    ∃ tokens, L.Explains inv Q c tokens := by
  refine reachable.invariant (fun c => ∃ tokens, L.Explains inv Q c tokens) initial ?_
  rintro c c' task ⟨tokens, explains⟩ step
  obtain ⟨token', explains'⟩ := sound.step_explains explains step
  exact ⟨_, explains'⟩

end Sound

end Protocol

end DiskAnn.Machine
