import DiskAnn.Machine.Protocol

/-! # Code that one task runs alone

`Prog.Runs` is what the code of a task does while no other task takes a step: it ends with a value in
a state. It has at most one outcome, and none where the code panics, waits or loops for ever. What a
protocol keeps over all interleavings, it also keeps along such a run.
-/

namespace DiskAnn.Machine

open Function

variable {I : Interface} {P T τ σ : Type} {α β γ : Type}

/-- The code runs to its end from one state to another and returns a value. -/
inductive Prog.Runs (sem : Semantics I τ σ) (task : τ) :
    {α : Type} → Prog I P α → σ → α → σ → Prop
  | ret {α : Type} (value : α) (s : σ) : Runs sem task (.ret value) s value s
  | call {α : Type} {o : I.Op} {next : I.Res o → Prog I P α} {s s' s'' : σ} {r : I.Res o} {value : α}
      (step : sem task o s = some (s', r)) (rest : Runs sem task (next r) s' value s'') :
      Runs sem task (.call o next) s value s''
  | loop {α β γ : Type} {body : β → Prog I P (β ⊕ γ)} {start : β} {next : γ → Prog I P α} {s s' : σ}
      {value : α} (rest : Runs sem task ((body start).bind (Prog.unroll body next)) s value s') :
      Runs sem task (.loop body start next) s value s'

namespace Prog

variable {sem : Semantics I τ σ} {task : τ} {s s' s'' : σ} {value : α}
  {o : I.Op} {body : β → Prog I P (β ⊕ α)} {p : Prog I P α}

@[simp] theorem runs_ret_iff {res : α} :
    Runs sem task (.ret res : Prog I P α) s value s' ↔ value = res ∧ s' = s := by
  constructor
  · rintro ⟨⟩
    exact ⟨rfl, rfl⟩
  · rintro ⟨rfl, rfl⟩
    exact .ret value s'

theorem Runs.of_ret {res : α} (run : Runs sem task (.ret res : Prog I P α) s value s') : value = res ∧ s' = s :=
  runs_ret_iff.mp run

theorem runs_call_iff {next : I.Res o → Prog I P α} :
    Runs sem task (.call o next) s value s'' ↔
      ∃ s' r, sem task o s = some (s', r) ∧ Runs sem task (next r) s' value s'' := by
  constructor
  · rintro (_ | ⟨step, rest⟩ | _)
    exact ⟨_, _, step, rest⟩
  · rintro ⟨s', r, step, rest⟩
    exact .call step rest

@[simp] theorem not_runs_panic {reason : P} :
    ¬ Runs sem task (.panic reason : Prog I P α) s value s' := nofun

theorem runs_loop_iff {body : β → Prog I P (β ⊕ γ)} {start : β} {next : γ → Prog I P α} :
    Runs sem task (.loop body start next) s value s' ↔
      Runs sem task ((body start).bind (unroll body next)) s value s' := by
  constructor
  · rintro (_ | _ | rest)
    exact rest
  · exact .loop

theorem Runs.bind {p : Prog I P β} {rest : β → Prog I P α} {u : β} (first : Runs sem task p s u s')
    (second : Runs sem task (rest u) s' value s'') : Runs sem task (p.bind rest) s value s'' := by
  induction first with
  | ret => exact second
  | call step _ ih => exact .call step (ih second)
  | loop _ ih =>
    refine .loop ?_
    have unrolled := ih second
    rwa [bind_assoc, unroll_bind] at unrolled

theorem Runs.of_bind {p : Prog I P β} {rest : β → Prog I P α}
    (run : Runs sem task (p.bind rest) s value s'') :
    ∃ u s', Runs sem task p s u s' ∧ Runs sem task (rest u) s' value s'' := by
  generalize shape : p.bind rest = q at run
  induction run generalizing β with
  | ret value s =>
    cases p with
    | ret u =>
      refine ⟨u, s, .ret u s, ?_⟩
      rw [← bind_ret u rest, shape]
      exact .ret value s
    | _ => cases shape
  | call step run ih =>
    cases p with
    | ret u =>
      refine ⟨u, _, .ret u _, ?_⟩
      rw [← bind_ret u rest, shape]
      exact .call step run
    | call o next =>
      cases shape
      obtain ⟨u, s', first, second⟩ := ih rfl
      exact ⟨u, s', .call step first, second⟩
    | _ => cases shape
  | @loop _ _ body start _ _ _ _ run ih =>
    cases p with
    | ret u =>
      refine ⟨u, _, .ret u _, ?_⟩
      rw [← bind_ret u rest, shape]
      exact .loop run
    | loop _ _ next =>
      cases shape
      obtain ⟨u, s', first, second⟩ := ih
        (by rw [bind_assoc, unroll_bind])
      exact ⟨u, s', .loop first, second⟩
    | _ => cases shape

theorem runs_bind_iff {p : Prog I P β} {rest : β → Prog I P α} :
    Runs sem task (p.bind rest) s value s'' ↔
      ∃ u s', Runs sem task p s u s' ∧ Runs sem task (rest u) s' value s'' :=
  ⟨Runs.of_bind, fun ⟨_, _, first, second⟩ => first.bind second⟩

theorem Runs.op {rest : I.Res o → Prog I P α} {r : I.Res o} (step : sem task o s = some (s', r))
    (next : Runs sem task (rest r) s' value s'') : Runs sem task (Prog.op o >>= rest) s value s'' :=
  .call step next

theorem runs_op_iff {rest : I.Res o → Prog I P α} :
    Runs sem task (Prog.op o >>= rest) s value s'' ↔
      ∃ s' r, sem task o s = some (s', r) ∧ Runs sem task (rest r) s' value s'' :=
  runs_call_iff

theorem Runs.of_op {rest : I.Res o → Prog I P α} (run : Runs sem task (Prog.op o >>= rest) s value s'') :
    ∃ s' r, sem task o s = some (s', r) ∧ Runs sem task (rest r) s' value s'' :=
  runs_op_iff.mp run

/-- One iteration that goes on, or one that leaves. -/
theorem Runs.again {start next : β} (iteration : Runs sem task (body start) s (.inl next) s')
    (rest : Runs sem task (repeatUntil body next) s' value s'') :
    Runs sem task (repeatUntil body start) s value s'' :=
  .loop (iteration.bind rest)

theorem Runs.leave {start : β} (iteration : Runs sem task (body start) s (.inr value) s') :
    Runs sem task (repeatUntil body start) s value s' :=
  .loop (iteration.bind (.ret value s'))

/-- A run has one outcome. -/
theorem Runs.unique {value' : α} (run : Runs sem task p s value s')
    (other : Runs sem task p s value' s'') : value = value' ∧ s' = s'' := by
  induction run with
  | ret =>
    obtain ⟨rfl, rfl⟩ := runs_ret_iff.mp other
    exact ⟨rfl, rfl⟩
  | call step _ ih =>
    obtain ⟨_, _, step', rest⟩ := runs_call_iff.mp other
    obtain ⟨rfl, rfl⟩ := Prod.mk.inj (Option.some.inj (step.symm.trans step'))
    exact ih rest
  | loop _ ih => exact ih (runs_loop_iff.mp other)

/-- What follows a part whose outcome is known. -/
theorem Runs.bind_iff {p : Prog I P β} {rest : β → Prog I P α} {u : β}
    (first : Runs sem task p s u s') :
    Runs sem task (p.bind rest) s value s'' ↔ Runs sem task (rest u) s' value s'' := by
  refine runs_bind_iff.trans ⟨?_, fun second => ⟨u, s', first, second⟩⟩
  rintro ⟨u', s₁, run, second⟩
  obtain ⟨rfl, rfl⟩ := first.unique run
  exact second

theorem runs_op_iff_of_eq {rest : I.Res o → Prog I P α} {r : I.Res o}
    (step : sem task o s = some (s', r)) :
    Runs sem task (Prog.op o >>= rest) s value s'' ↔ Runs sem task (rest r) s' value s'' :=
  (Runs.call step (.ret r s')).bind_iff

theorem Runs.after {rest : I.Res o → Prog I P α} {r : I.Res o} (run : Runs sem task (Prog.op o >>= rest) s value s'')
    (step : sem task o s = some (s', r)) : Runs sem task (rest r) s' value s'' :=
  (runs_op_iff_of_eq step).mp run

/-- A run changes the state as the calls do that the code may make. -/
theorem Runs.keeps {allowed : I.Op → Prop} (same : σ → σ → Prop) (refl : ∀ s, same s s)
    (trans : ∀ s s' s'', same s s' → same s' s'' → same s s'')
    (steps : ∀ o s s' r, allowed o → sem task o s = some (s', r) → same s s')
    (calls : p.Calls allowed) (run : Runs sem task p s value s') : same s s' := by
  induction run with
  | ret value s => exact refl s
  | call step _ ih => exact trans _ _ _ (steps _ _ _ _ calls.1 step) (ih (calls.2 _))
  | loop _ ih => exact ih ((calls.1 _).bind (Calls.unroll calls.1 calls.2))

/-- A run over one state is a run over every state related to it. -/
theorem Runs.simulate {σ' : Type} {sem' : Semantics I τ σ'} {allowed : I.Op → Prop}
    (rel : σ → σ' → Prop)
    (steps : ∀ o s s' r t, allowed o → sem task o s = some (s', r) → rel s t →
      ∃ t', sem' task o t = some (t', r) ∧ rel s' t') (calls : p.Calls allowed)
    (run : Runs sem task p s value s') {t : σ'} (related : rel s t) :
    ∃ t', Runs sem' task p t value t' ∧ rel s' t' := by
  induction run generalizing t with
  | ret value s => exact ⟨t, .ret value t, related⟩
  | call step _ ih =>
    obtain ⟨t', step', related'⟩ := steps _ _ _ _ _ calls.1 step related
    obtain ⟨t'', rest, related''⟩ := ih (calls.2 _) related'
    exact ⟨t'', .call step' rest, related''⟩
  | loop _ ih =>
    obtain ⟨t', rest, related'⟩ := ih ((calls.1 _).bind (Calls.unroll calls.1 calls.2)) related
    exact ⟨t', .loop rest, related'⟩

/-- A run that ends inside a region where another semantics does the same. -/
theorem Runs.inside {sem' : Semantics I τ σ} (region : σ → Prop)
    (steps : ∀ o s s' r, sem task o s = some (s', r) → region s' →
      region s ∧ sem' task o s = some (s', r)) (run : Runs sem task p s value s') (ends : region s') :
    region s ∧ Runs sem' task p s value s' := by
  induction run with
  | ret value s => exact ⟨ends, .ret value s⟩
  | call step _ ih =>
    obtain ⟨middle, rest⟩ := ih ends
    obtain ⟨start, step'⟩ := steps _ _ _ _ step middle
    exact ⟨start, .call step' rest⟩
  | loop _ ih => exact (ih ends).imp_right .loop

section When

variable {meets : τ → I.Op → σ → Prop} [∀ task o s, Decidable (meets task o s)]

theorem Runs.of_when {p : Prog I P α} (run : Runs (sem.when meets) task p s value s') :
    Runs sem task p s value s' := by
  induction run with
  | ret value s => exact .ret value s
  | call step _ ih => exact .call (Semantics.when_eq_some.mp step).2 ih
  | loop _ ih => exact .loop ih

/-- Code whose calls always meet the condition. -/
theorem runs_when_iff_of_calls {allowed : I.Op → Prop} (holds : ∀ o s, allowed o → meets task o s)
    {p : Prog I P α} (calls : p.Calls allowed) :
    Runs (sem.when meets) task p s value s' ↔ Runs sem task p s value s' := by
  refine ⟨Runs.of_when, fun run => ?_⟩
  induction run with
  | ret value s => exact .ret value s
  | call step _ ih =>
    exact .call (Semantics.when_eq_some.mpr ⟨holds _ _ calls.1, step⟩) (ih (calls.2 _))
  | loop _ ih => exact .loop (ih ((calls.1 _).bind (Calls.unroll calls.1 calls.2)))

theorem runs_when_op_iff {o : I.Op} {rest : I.Res o → Prog I P α} :
    Runs (sem.when meets) task (Prog.op o >>= rest) s value s'' ↔ meets task o s ∧
      ∃ s' r, sem task o s = some (s', r) ∧ Runs (sem.when meets) task (rest r) s' value s'' := by
  simp only [runs_op_iff, Semantics.when_eq_some, and_assoc, exists_and_left]

theorem runs_when_op_iff_of_eq {o : I.Op} {rest : I.Res o → Prog I P α} {r : I.Res o}
    (step : sem task o s = some (s', r)) :
    Runs (sem.when meets) task (Prog.op o >>= rest) s value s'' ↔
      meets task o s ∧ Runs (sem.when meets) task (rest r) s' value s'' := by
  rw [runs_when_op_iff]
  refine and_congr_right fun _ => ⟨?_, fun next => ⟨s', r, step, next⟩⟩
  rintro ⟨_, _, taken, next⟩
  obtain ⟨rfl, rfl⟩ := Prod.mk.inj (Option.some.inj (step.symm.trans taken))
  exact next

end When

/-- The rule for a loop that is in the middle of an iteration, with `p` left of its body. -/
theorem Runs.of_unroll (inv : β → σ → Prop) (post : α → σ → Prop)
    (step : ∀ b r s s', inv b s → Runs sem task (body b) s r s' → r.elim (inv · s') (post · s'))
    {p : Prog I P (β ⊕ α)} (run : Runs sem task (p.bind (unroll body .ret)) s value s')
    (ends : ∀ r s₁, Runs sem task p s r s₁ → r.elim (inv · s₁) (post · s₁)) : post value s' := by
  generalize shape : p.bind (unroll body .ret) = q at run
  induction run generalizing p with
  | ret value s =>
    cases p with
    | ret r =>
      cases r with
      | inl b => cases shape
      | inr v =>
        cases shape
        exact ends _ _ (.ret _ _)
    | _ => cases shape
  | call taken _ ih =>
    cases p with
    | ret r => cases r <;> cases shape
    | call o next =>
      cases shape
      exact ih (fun r s₁ rest => ends r s₁ (.call taken rest)) rfl
    | _ => cases shape
  | @loop _ _ inner first _ _ _ _ _ ih =>
    cases p with
    | ret r =>
      cases r with
      | inr v => cases shape
      | inl b =>
        cases shape
        have here := ends _ _ (.ret _ _)
        exact ih (fun r s₁ rest => step b r _ s₁ here rest) rfl
    | loop _ _ next =>
      cases shape
      refine ih
        (fun r s₁ rest => ends r s₁ (.loop rest)) ?_
      rw [bind_assoc, unroll_bind]
    | _ => cases shape

/-- What every iteration keeps, and what leaving one gives. -/
theorem Runs.of_repeatUntil {start : β} (inv : β → σ → Prop) (post : α → σ → Prop)
    (step : ∀ b r s s', inv b s → Runs sem task (body b) s r s' → r.elim (inv · s') (post · s'))
    (run : Runs sem task (repeatUntil body start) s value s') (initial : inv start s) :
    post value s' := by
  refine Runs.of_unroll inv post step (p := .ret (.inl start)) run fun r s₁ ended => ?_
  obtain ⟨rfl, rfl⟩ := runs_ret_iff.mp ended
  exact initial

/-- A run by evaluation, as far as `fuel` goes. -/
def evaluate (sem : Semantics I τ σ) (task : τ) : ℕ → {α : Type} → Prog I P α → σ → Option (α × σ)
  | 0, _, _, _ => none
  | _ + 1, _, .ret value, s => some (value, s)
  | fuel + 1, _, .call o next, s =>
      (sem task o s).bind fun out => evaluate sem task fuel (next out.2) out.1
  | _ + 1, _, .panic _, _ => none
  | fuel + 1, _, .loop body start next, s =>
      evaluate sem task fuel ((body start).bind (unroll body next)) s

theorem Runs.of_evaluate (fuel : ℕ) {s : σ} {out : α × σ}
    (ends : evaluate sem task fuel p s = some out) : Runs sem task p s out.1 out.2 := by
  induction fuel generalizing p s with
  | zero => cases ends
  | succ fuel ih =>
    cases p with
    | ret value =>
      cases ends
      exact .ret value s
    | call o next =>
      obtain ⟨⟨s', r⟩, step, ends⟩ := Option.bind_eq_some_iff.mp ends
      exact .call step (ih ends)
    | panic reason => cases ends
    | loop body start next => exact .loop (ih ends)

/-- Where evaluation ends within its fuel. -/
theorem Runs.get_evaluate (sem : Semantics I τ σ) (task : τ) (fuel : ℕ) (p : Prog I P α) (s : σ)
    (ends : (evaluate sem task fuel p s).isSome = true) :
    Runs sem task p s ((evaluate sem task fuel p s).get ends).1
      ((evaluate sem task fuel p s).get ends).2 :=
  .of_evaluate fuel (Option.some_get ends).symm

/-! ## Code of a part of the state -/

section Lift

variable {J : Interface} {R ρ : Type} {small : Semantics I τ ρ} {large : Semantics J τ σ}
  {embed : I.Op → J.Op} {answer : ∀ o, J.Res (embed o) → I.Res o} {raise : P → R} (get : σ → ρ)
  (same : σ → σ → Prop)

/-- A run over the whole state is a run over the part, and leaves the same as its operations do. -/
theorem Runs.of_lift (refl : ∀ s, same s s) (trans : ∀ s s' s'', same s s' → same s' s'' → same s s'')
    (steps : ∀ s s' o r, large task (embed o) s = some (s', r) →
      small task o (get s) = some (get s', answer o r) ∧ same s s')
    {p : Prog I P α} (run : Runs large task (p.lift embed answer raise) s value s') :
    Runs small task p (get s) value (get s') ∧ same s s' := by
  generalize shape : p.lift embed answer raise = q at run
  induction run generalizing p with
  | ret value s =>
    cases p with
    | ret u =>
      cases shape
      exact ⟨.ret value _, refl s⟩
    | _ => cases shape
  | call step _ ih =>
    cases p with
    | call o next =>
      cases shape
      obtain ⟨step', kept⟩ := steps _ _ _ _ step
      obtain ⟨rest, kept'⟩ := ih rfl
      exact ⟨.call step' rest, trans _ _ _ kept kept'⟩
    | _ => cases shape
  | loop _ ih =>
    cases p with
    | loop body start next =>
      cases shape
      obtain ⟨rest, kept⟩ := ih
        (by rw [lift_bind, lift_unroll])
      exact ⟨.loop rest, kept⟩
    | _ => cases shape

/-- A run over the part is one over the whole state. -/
theorem Runs.lift (refl : ∀ s, same s s) (trans : ∀ s s' s'', same s s' → same s' s'' → same s s'')
    (steps : ∀ s o part r, small task o (get s) = some (part, r) →
      ∃ s' r', large task (embed o) s = some (s', r') ∧ get s' = part ∧ answer o r' = r ∧ same s s')
    {p : Prog I P α} {part part' : ρ} (run : Runs small task p part value part') {s : σ}
    (here : get s = part) :
    ∃ s', get s' = part' ∧ same s s' ∧ Runs large task (p.lift embed answer raise) s value s' := by
  induction run generalizing s with
  | ret value => exact ⟨s, here, refl s, .ret value s⟩
  | call step _ ih =>
    subst here
    obtain ⟨s', r', step', there, rfl, kept⟩ := steps _ _ _ _ step
    obtain ⟨s'', part, kept', rest⟩ := ih there
    exact ⟨s'', part, trans _ _ _ kept kept', .call step' rest⟩
  | loop _ ih =>
    obtain ⟨s', part, kept, rest⟩ := ih here
    rw [lift_bind, lift_unroll] at rest
    exact ⟨s', part, kept, .loop rest⟩

end Lift

end Prog

/-! ## Calls one after the other -/

/-- A call with the states around it and what it returned. -/
structure Call (σ C β : Type) where
  before : σ
  call : C
  value : β
  after : σ

/-- The calls that a task makes one after the other, from a state on. -/
def Trace {C : Type} (sem : Semantics I τ σ) (task : τ) (code : C → Prog I P β) :
    σ → List (Call σ C β) → Prop
  | _, [] => True
  | s, step :: rest =>
      step.before = s ∧ (code step.call).Runs sem task s step.value step.after ∧
        Trace sem task code step.after rest

/-- A run of code that follows a protocol keeps its invariant. -/
theorem Protocol.Sound.runs [DecidableEq τ] {L : Protocol I P T} {sem : Semantics I τ σ}
    {inv : σ → (τ → T) → Prop} (sound : L.Sound sem inv) {p : Prog I P α} {task : τ} {s s' : σ}
    {value : α} {tokens : τ → T} {Q : T → α → Prop} (kept : inv s tokens)
    (follows : L.wp (tokens task) p Q) (run : p.Runs sem task s value s') :
    ∃ token', Q token' value ∧ inv s' (update tokens task token') := by
  induction run generalizing tokens with
  | ret =>
    refine ⟨tokens task, wp_ret_iff.mp follows, ?_⟩
    rwa [update_eq_self]
  | call step _ ih =>
    obtain ⟨pre, rest⟩ := wp_call_iff.mp follows
    obtain ⟨token', post, kept'⟩ := sound.step kept pre step
    obtain ⟨token'', holds, kept''⟩ := ih kept' (by simpa using rest _ _ post)
    rw [update_idem] at kept''
    exact ⟨token'', holds, kept''⟩
  | loop _ ih => exact ih kept (wp_loop_iff.mp follows)

end DiskAnn.Machine
