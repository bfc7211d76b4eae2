import DiskAnn.Machine.Solo

/-! # Code that ends with a result

Where no operation waits, code that one task runs alone can be followed by what each operation does
to a view of the state. `Prog.Ends` says that the code comes to its end there with a result, or
panics where that is allowed; `Simulates` ties the view to the states it is a view of.
-/

namespace DiskAnn.Machine

variable {I J : Interface} {P R τ σ ρ : Type} {α β γ : Type}

/-- What each operation does where none of them waits. -/
abbrev Steps (I : Interface) (σ : Type) := (o : I.Op) → σ → σ × I.Res o

/-- The code ends with a value and a state as described, or with a panic that is allowed. -/
inductive Prog.Ends (steps : Steps I σ) (mayPanic : Prop) :
    {α : Type} → Prog I P α → σ → (α → σ → Prop) → Prop
  | ret {α : Type} {value : α} {s : σ} {Q : α → σ → Prop} (post : Q value s) :
      Ends steps mayPanic (.ret value) s Q
  | call {α : Type} {o : I.Op} {next : I.Res o → Prog I P α} {s : σ} {Q : α → σ → Prop}
      (rest : Ends steps mayPanic (next (steps o s).2) (steps o s).1 Q) :
      Ends steps mayPanic (.call o next) s Q
  | panic {α : Type} {reason : P} {s : σ} {Q : α → σ → Prop} (allowed : mayPanic) :
      Ends steps mayPanic (.panic reason) s Q
  | loop {α β γ : Type} {body : β → Prog I P (β ⊕ γ)} {start : β} {next : γ → Prog I P α} {s : σ}
      {Q : α → σ → Prop}
      (rest : Ends steps mayPanic ((body start).bind (Prog.unroll body next)) s Q) :
      Ends steps mayPanic (.loop body start next) s Q

namespace Prog

variable {steps : Steps I σ} {mayPanic : Prop} {s : σ} {Q : α → σ → Prop}

@[simp] theorem ends_ret_iff {value : α} :
    Ends steps mayPanic (.ret value : Prog I P α) s Q ↔ Q value s := by
  constructor
  · rintro ⟨post⟩
    exact post
  · exact .ret

/-- The next operation of the code. -/
theorem ends_op_iff {o : I.Op} {rest : I.Res o → Prog I P α} :
    Ends steps mayPanic (Prog.op o >>= rest) s Q ↔
      Ends steps mayPanic (rest (steps o s).2) (steps o s).1 Q := by
  constructor
  · rintro (_ | rest)
    exact rest
  · exact .call

theorem Ends.op {o : I.Op} {rest : I.Res o → Prog I P α} {r : I.Res o} {t : σ}
    (step : steps o s = (t, r)) (next : Ends steps mayPanic (rest r) t Q) :
    Ends steps mayPanic (Prog.op o >>= rest) s Q := by
  rw [ends_op_iff, step]
  exact next

theorem ends_last_op_iff {o : I.Op} {Q : I.Res o → σ → Prop} :
    Ends steps mayPanic (Prog.op o : Prog I P (I.Res o)) s Q ↔ Q (steps o s).2 (steps o s).1 := by
  constructor
  · rintro (_ | ⟨⟨post⟩⟩)
    exact post
  · exact fun post => .call (.ret post)

theorem Ends.mono {p : Prog I P α} {Q' : α → σ → Prop} (ends : Ends steps mayPanic p s Q)
    (weaker : ∀ value s', Q value s' → Q' value s') : Ends steps mayPanic p s Q' := by
  induction ends with
  | ret post => exact .ret (weaker _ _ post)
  | call _ ih => exact .call (ih weaker)
  | panic allowed => exact .panic allowed
  | loop _ ih => exact .loop (ih weaker)

theorem Ends.bind {p : Prog I P β} {rest : β → Prog I P α}
    (first : Ends steps mayPanic p s fun value s' => Ends steps mayPanic (rest value) s' Q) :
    Ends steps mayPanic (p.bind rest) s Q := by
  generalize shape : (fun value s' => Ends steps mayPanic (rest value) s' Q) = between at first
  induction first with
  | ret post =>
    subst shape
    exact post
  | call _ ih => exact .call (ih shape)
  | panic allowed => exact .panic allowed
  | loop _ ih =>
    refine .loop ?_
    have unrolled := ih shape
    rwa [bind_assoc, unroll_bind] at unrolled

/-- What follows a part of the code. -/
theorem Ends.then {p : Prog I P β} {rest : β → Prog I P α} {M : β → σ → Prop}
    (first : Ends steps mayPanic p s M)
    (second : ∀ value s', M value s' → Ends steps mayPanic (rest value) s' Q) :
    Ends steps mayPanic (p >>= rest) s Q :=
  (first.mono second).bind

/-- One iteration of a loop, after which it goes on or is left. -/
theorem Ends.iterate {body : β → Prog I P (β ⊕ α)} {start : β}
    (iteration : Ends steps mayPanic (body start) s fun r s' =>
      r.elim (fun next => Ends steps mayPanic (repeatUntil body next) s' Q) fun value => Q value s') :
    Ends steps mayPanic (repeatUntil body start) s Q := by
  refine .loop (iteration.mono fun r s' post => ?_).bind
  cases r with
  | inl next => exact post
  | inr value => exact .ret post

/-- A loop whose iterations keep an invariant and make something smaller. -/
theorem Ends.repeat {body : β → Prog I P (β ⊕ α)} {start : β} (inv : β → σ → Prop)
    (size : β → σ → ℕ) (initial : inv start s)
    (iteration : ∀ b s, inv b s → Ends steps mayPanic (body b) s fun r s' =>
      r.elim (fun next => inv next s' ∧ size next s' < size b s) fun value => Q value s') :
    Ends steps mayPanic (repeatUntil body start) s Q := by
  induction most : size start s using Nat.strong_induction_on generalizing start s with
  | _ most ih =>
    subst most
    refine .iterate ((iteration start s initial).mono fun r s' post => ?_)
    cases r with
    | inl next => exact ih _ post.2 post.1 rfl
    | inr value => exact post

/-! ## A part of the state -/

/-- Code of a part of the state changes nothing else. -/
theorem Ends.lift {part : Steps I ρ} {whole : Steps J σ} {embed : I.Op → J.Op}
    {answer : ∀ o, J.Res (embed o) → I.Res o} {raise : P → R} (get : σ → ρ) (put : σ → ρ → σ)
    (getPut : ∀ s r, get (put s r) = r) (putGet : ∀ s, put s (get s) = s)
    (putPut : ∀ s r r', put (put s r) r' = put s r')
    (steps : ∀ o s, (whole (embed o) s).1 = put s (part o (get s)).1 ∧
      answer o (whole (embed o) s).2 = (part o (get s)).2)
    {p : Prog I P α} {s : σ} {Q : α → ρ → Prop} (ends : Ends part mayPanic p (get s) Q) :
    Ends whole mayPanic (p.lift embed answer raise) s fun value s' =>
      Q value (get s') ∧ s' = put s (get s') := by
  generalize here : get s = r at ends
  induction ends generalizing s with
  | ret post =>
    subst here
    exact .ret ⟨post, (putGet s).symm⟩
  | @call o _ _ _ _ ih =>
    subst here
    obtain ⟨state, res⟩ := steps o s
    refine .call ?_
    rw [state, res]
    refine (ih (getPut _ _)).mono fun value s' ⟨post, same⟩ => ⟨post, ?_⟩
    rw [putPut] at same
    exact same
  | panic allowed => exact .panic allowed
  | loop _ ih =>
    refine .loop ?_
    have unrolled := ih here
    rwa [lift_bind, lift_unroll] at unrolled

end Prog

/-! ## Views of a state -/

/-- Each operation acts on the view as on the state. -/
def Simulates (sem : Semantics I τ ρ) (steps : Steps I σ) (view : ρ → σ) : Prop :=
  ∀ task o s, (sem task o s).map (fun out => (view out.1, out.2)) = some (steps o (view s))

namespace Simulates

variable {sem : Semantics I τ ρ} {steps : Steps I σ} {view : ρ → σ} {mayPanic : Prop} {task : τ}
  {p : Prog I P α} {s s' : ρ} {Q : α → σ → Prop}

/-- Code that ends in the view has a run. -/
theorem runs (sim : Simulates sem steps view) (task : τ) (ends : p.Ends steps mayPanic (view s) Q)
    (calm : ¬ mayPanic) : ∃ value s', p.Runs sem task s value s' ∧ Q value (view s') := by
  generalize here : view s = t at ends
  induction ends generalizing s with
  | ret post =>
    subst here
    exact ⟨_, s, .ret _ s, post⟩
  | @call o _ _ _ _ ih =>
    subst here
    obtain ⟨⟨s₁, r⟩, step, there⟩ := Option.map_eq_some_iff.mp (sim task o s)
    rw [← there] at ih
    obtain ⟨value, s', run, post⟩ := ih rfl
    exact ⟨value, s', .call step run, post⟩
  | panic allowed => exact absurd allowed calm
  | loop _ ih =>
    obtain ⟨value, s', run, post⟩ := ih here
    exact ⟨value, s', .loop run, post⟩

/-- What holds at the end in the view holds where a run ends. -/
theorem of_runs (sim : Simulates sem steps view) (ends : p.Ends steps mayPanic (view s) Q) {value : α}
    (run : p.Runs sem task s value s') : Q value (view s') := by
  induction run with
  | ret value s => exact Prog.ends_ret_iff.mp ends
  | @call o _ s _ _ _ _ step _ ih =>
    have there := sim task o s
    rw [step, Option.map_some, Option.some.injEq] at there
    rcases ends with _ | rest
    rw [← there] at rest
    exact ih rest
  | loop _ ih =>
    rcases ends with _ | _ | _ | rest
    exact ih rest

end Simulates

end DiskAnn.Machine
