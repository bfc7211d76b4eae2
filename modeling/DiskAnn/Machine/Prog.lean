import Mathlib

/-! # Concurrent programs over atomic operations

`Prog` is sequential code whose only effects are calls of the atomic operations of an
`Interface`; a `Semantics` says what one call does to the shared state, and answers `none` while
the call has to wait. A `Config` runs one program per task over one shared state, one atomic
operation at a time, in the order a schedule gives. Nothing here fixes the number of tasks or the
programs they run.
-/

namespace DiskAnn.Machine

open Function Option

/-- Atomic operations together with the type of what each one answers. -/
structure Interface where
  Op : Type
  Res : Op → Type

/-- Code over the operations of `I` that returns an `α` or panics with a reason in `P`. -/
inductive Prog (I : Interface) (P : Type) : Type → Type 1
  | ret {α : Type} (value : α) : Prog I P α
  | call {α : Type} (op : I.Op) (next : I.Res op → Prog I P α) : Prog I P α
  | panic {α : Type} (reason : P) : Prog I P α
  | loop {α β γ : Type} (body : β → Prog I P (β ⊕ γ)) (start : β)
      (next : γ → Prog I P α) : Prog I P α

namespace Prog

variable {I J : Interface} {P R : Type} {α β γ δ : Type}

protected def bind : Prog I P α → (α → Prog I P β) → Prog I P β
  | ret value, rest => rest value
  | call op next, rest => call op fun answer => (next answer).bind rest
  | panic reason, _ => panic reason
  | loop body start next, rest => loop body start fun value => (next value).bind rest

instance : Monad (Prog I P) where
  pure := ret
  bind := Prog.bind

/-- One atomic operation, whose answer is returned. -/
def op (o : I.Op) : Prog I P (I.Res o) := call o ret

variable (body : β → Prog I P (β ⊕ γ))

/-- Repeat `body` until it answers on the right. -/
def repeatUntil (start : β) : Prog I P γ := loop body start ret

/-- The next iteration of a loop, or what follows it. -/
def unroll (next : γ → Prog I P α) : β ⊕ γ → Prog I P α
  | .inl again => loop body again next
  | .inr value => next value

/-- Run code over `I` as code over a larger interface `J`. -/
def lift (embed : I.Op → J.Op) (answer : ∀ o, J.Res (embed o) → I.Res o) (raise : P → R) :
    {α : Type} → Prog I P α → Prog J R α
  | _, ret value => ret value
  | _, call o next => call (embed o) fun r => (next (answer o r)).lift embed answer raise
  | _, panic reason => panic (raise reason)
  | _, loop body start next =>
      loop (fun b => (body b).lift embed answer raise) start fun c =>
        (next c).lift embed answer raise

/-- Whatever the operations answer, the code only makes calls that are allowed. -/
def Calls (allowed : I.Op → Prop) : {α : Type} → Prog I P α → Prop
  | _, ret _ => True
  | _, call o next => allowed o ∧ ∀ r, (next r).Calls allowed
  | _, panic _ => True
  | _, loop body _ next => (∀ b, (body b).Calls allowed) ∧ ∀ c, (next c).Calls allowed

@[simp] theorem bind_ret (value : α) (rest : α → Prog I P β) :
    (ret value).bind rest = rest value := rfl

variable (p : Prog I P α)

@[simp] theorem monad_bind_eq (rest : α → Prog I P β) :
    p >>= rest = p.bind rest := rfl

@[simp] theorem monad_pure_eq (value : α) : (pure value : Prog I P α) = ret value := rfl

theorem bind_assoc (f : α → Prog I P β) (g : β → Prog I P γ) :
    (p.bind f).bind g = p.bind fun value => (f value).bind g := by
  induction p with
  | ret value => rfl
  | call o next ih =>
    exact congrArg _ (funext fun answer => ih answer f)
  | panic reason => rfl
  | loop body start next _ ih =>
    exact congrArg _ (funext fun value => ih value f)

theorem Calls.bind {allowed : I.Op → Prop} {p : Prog I P α} {rest : α → Prog I P β}
    (first : p.Calls allowed) (second : ∀ value, (rest value).Calls allowed) :
    (p.bind rest).Calls allowed := by
  induction p with
  | ret value => exact second value
  | call o next ih => exact ⟨first.1, fun r => ih r (first.2 r) second⟩
  | panic reason => trivial
  | loop body start next _ ih => exact ⟨first.1, fun c => ih c (first.2 c) second⟩

theorem Calls.mono {allowed allowed' : I.Op → Prop} {p : Prog I P α} (calls : p.Calls allowed)
    (weaker : ∀ o, allowed o → allowed' o) : p.Calls allowed' := by
  induction p with
  | ret value => trivial
  | call o next ih => exact ⟨weaker o calls.1, fun r => ih r (calls.2 r)⟩
  | panic reason => trivial
  | loop body start next ihBody ih =>
    exact ⟨fun b => ihBody b (calls.1 b), fun c => ih c (calls.2 c)⟩

theorem Calls.unroll {allowed : I.Op → Prop} {body : β → Prog I P (β ⊕ γ)} {next : γ → Prog I P α}
    (inner : ∀ b, (body b).Calls allowed) (after : ∀ c, (next c).Calls allowed) (r : β ⊕ γ) :
    (unroll body next r).Calls allowed := by
  cases r with
  | inl again => exact ⟨inner, after⟩
  | inr value => exact after value

variable (embed : I.Op → J.Op) (answer : ∀ o, J.Res (embed o) → I.Res o) (raise : P → R)

/-- Lifted code only makes lifted calls. -/
theorem Calls.lift : (p.lift embed answer raise).Calls fun o => ∃ q, o = embed q := by
  induction p with
  | ret value => trivial
  | call o next ih => exact ⟨⟨o, rfl⟩, fun r => ih (answer o r)⟩
  | panic reason => trivial
  | loop body start next ihBody ih => exact ⟨ihBody, ih⟩

theorem unroll_bind (next : γ → Prog I P α)
    (rest : α → Prog I P δ) :
    (fun r => (unroll body next r).bind rest) =
      unroll body fun value => (next value).bind rest := by
  funext r
  cases r <;> rfl

theorem lift_bind (rest : α → Prog I P β) :
    (p.bind rest).lift embed answer raise =
      (p.lift embed answer raise).bind fun value => (rest value).lift embed answer raise := by
  induction p with
  | ret value => rfl
  | call o next ih => exact congrArg _ (funext fun r => ih (answer o r) rest)
  | panic reason => rfl
  | loop body start next _ ih => exact congrArg _ (funext fun value => ih value rest)

theorem lift_unroll (body : β → Prog I P (β ⊕ γ)) (next : γ → Prog I P α) :
    (fun r => (unroll body next r).lift embed answer raise) =
      unroll (fun b => (body b).lift embed answer raise)
        fun c => (next c).lift embed answer raise := by
  funext r
  cases r <;> rfl

end Prog

/-- What an atomic operation of a task does to the shared state; `none` while it has to wait. -/
abbrev Semantics (I : Interface) (τ σ : Type) := τ → (o : I.Op) → σ → Option (σ × I.Res o)

/-- The runs whose operations all meet a condition in the state they are applied to. -/
def Semantics.when {I : Interface} {τ σ : Type} (sem : Semantics I τ σ) (meets : τ → I.Op → σ → Prop)
    [∀ task o s, Decidable (meets task o s)] : Semantics I τ σ := fun task o s =>
  if meets task o s then sem task o s else none

theorem Semantics.when_eq_some {I : Interface} {τ σ : Type} {sem : Semantics I τ σ}
    {meets : τ → I.Op → σ → Prop} [∀ task o s, Decidable (meets task o s)] {task : τ} {o : I.Op}
    {s : σ} {out : σ × I.Res o} :
    sem.when meets task o s = some out ↔ meets task o s ∧ sem task o s = some out := by
  by_cases holds : meets task o s <;> simp [Semantics.when]

/-- The next step of one task's code. -/
def Prog.step {I : Interface} {P τ σ α : Type} (sem : Semantics I τ σ) (task : τ) :
    Prog I P α → σ → Option (σ × Prog I P α)
  | .ret _, _ => none
  | .call o next, s => (sem task o s).map fun out => (out.1, next out.2)
  | .panic _, _ => none
  | .loop body start next, s => some (s, (body start).bind (Prog.unroll body next))

/-- A shared state together with what every task still has to run. -/
structure Config (I : Interface) (P τ σ : Type) where
  shared : σ
  code : τ → Prog I P Unit

namespace Config

variable {I : Interface} {P τ σ : Type} [DecidableEq τ]

/-- Let one task take its next step. -/
def step (sem : Semantics I τ σ) (c : Config I P τ σ) (task : τ) : Option (Config I P τ σ) :=
  ((c.code task).step sem task c.shared).map fun out =>
    ⟨out.1, update c.code task out.2⟩

/-- Let the tasks of a schedule take one step each, in order. -/
def run (sem : Semantics I τ σ) : Config I P τ σ → List τ → Option (Config I P τ σ)
  | c, [] => some c
  | c, task :: rest => (c.step sem task).bind fun next => next.run sem rest

/-- Some schedule leads from `start` to `c`. -/
def Reachable (sem : Semantics I τ σ) (start c : Config I P τ σ) : Prop :=
  ∃ schedule, start.run sem schedule = some c

/-- The task has returned from all its code. -/
def Done (c : Config I P τ σ) (task : τ) : Prop := c.code task = .ret ()

/-- What a step of a task is: one atomic operation, or the start of a loop iteration. -/
theorem step_cases {sem : Semantics I τ σ} {c c' : Config I P τ σ} {task : τ}
    (step : c.step sem task = some c') :
    (∃ o next s' r, c.code task = .call o next ∧ sem task o c.shared = some (s', r) ∧
      c' = ⟨s', update c.code task (next r)⟩) ∨
    (∃ (β γ : Type) (body : β → Prog I P (β ⊕ γ)) (b : β) (next : γ → Prog I P Unit),
      c.code task = .loop body b next ∧
      c' = ⟨c.shared, update c.code task ((body b).bind (Prog.unroll body next))⟩) := by
  unfold Config.step at step
  cases shape : c.code task with
  | ret value => simp [shape, Prog.step] at step
  | panic reason => simp [shape, Prog.step] at step
  | call o next =>
    cases outcome : sem task o c.shared with
    | none => simp [shape, Prog.step, outcome] at step
    | some out =>
      simp only [shape, Prog.step, outcome, map_some, some.injEq] at step
      exact .inl ⟨o, next, out.1, out.2, rfl, outcome, step.symm⟩
  | loop body b next =>
    simp only [shape, Prog.step, map_some, some.injEq] at step
    exact .inr ⟨_, _, body, b, next, rfl, step.symm⟩

/-- What holds at the start and survives every step holds wherever a schedule leads. -/
theorem Reachable.invariant {sem : Semantics I τ σ} {start c : Config I P τ σ}
    (reachable : Reachable sem start c) (inv : Config I P τ σ → Prop) (initial : inv start)
    (preserved : ∀ c c' task, inv c → c.step sem task = some c' → inv c') : inv c := by
  obtain ⟨schedule, run⟩ := reachable
  induction schedule generalizing start with
  | nil =>
    obtain rfl : start = c := by simpa [Config.run] using run
    exact initial
  | cons task rest ih =>
    obtain ⟨next, step, run⟩ := bind_eq_some_iff.mp run
    exact ih (preserved start next task initial step) run

/-- One more step. -/
theorem Reachable.next {sem : Semantics I τ σ} {start c c' : Config I P τ σ}
    (reachable : Reachable sem start c) (task : τ) (step : c.step sem task = some c') :
    Reachable sem start c' := by
  obtain ⟨schedule, run⟩ := reachable
  refine ⟨schedule ++ [task], ?_⟩
  induction schedule generalizing start with
  | nil =>
    obtain rfl : start = c := by simpa [Config.run] using run
    simp [Config.run, step]
  | cons first rest ih =>
    obtain ⟨second, stepped, run⟩ := bind_eq_some_iff.mp run
    rw [List.cons_append, Config.run, stepped]
    exact ih run

/-- Where a schedule that never blocks leads is reachable. -/
theorem Reachable.of_run (sem : Semantics I τ σ) (start : Config I P τ σ) (schedule : List τ)
    (runs : (start.run sem schedule).isSome = true) :
    Reachable sem start ((start.run sem schedule).get runs) :=
  ⟨schedule, (some_get runs).symm⟩

end Config

end DiskAnn.Machine
