import Mathlib

/-! # Computations that fail or do not end

`ExceptT ε Option α`: no value where a computation does not end or panics, an error where it fails.
A run that succeeds is taken apart step by step; `Ends` is the rule for runs that may fail.
-/

namespace Fallible

variable {ε α β : Type} {x : Except ε α} {a : α} {P : α → Prop}

theorem pure_inj {x y : α} (same : (pure x : ExceptT ε Option α) = pure y) : x = y :=
  Except.ok.inj (Option.some.inj same)

theorem bind_eq_pure {x : ExceptT ε Option α} {f : α → ExceptT ε Option β} {b : β} :
    x >>= f = pure b ↔ ∃ a, x = pure a ∧ f a = pure b := by
  constructor
  · intro ran
    match x with
    | none => cases ran
    | some (.error e) => cases ran
    | some (.ok a) => exact ⟨a, rfl, ran⟩
  · rintro ⟨a, rfl, ran⟩
    rw [pure_bind, ran]

theorem liftM_option_eq_pure {x : Option α} :
    (liftM x : ExceptT ε Option α) = pure a ↔ x = some a := by
  constructor
  · intro ran
    match x with
    | none => cases ran
    | some b => rw [pure_inj ran]
  · rintro rfl
    rfl

theorem liftM_except_eq_pure : (liftM x : ExceptT ε Option α) = pure a ↔ x = .ok a := by
  constructor
  · intro ran
    match x with
    | .error e => cases ran
    | .ok b => rw [pure_inj ran]
  · rintro rfl
    rfl

theorem except_bind_eq_ok {f : α → Except ε β} {b : β} :
    x >>= f = .ok b ↔ ∃ a, x = .ok a ∧ f a = .ok b := by
  cases x with
  | error e => exact iff_of_false (fun ran => by cases ran) (by rintro ⟨_, ran, -⟩; cases ran)
  | ok a => exact ⟨fun ran => ⟨a, rfl, ran⟩, by rintro ⟨_, ⟨⟩, ran⟩; exact ran⟩

theorem mapM_eq_ok {f : α → Except ε β} {l : List α} {bs : List β} (ran : l.mapM f = .ok bs) :
    List.Forall₂ (fun a b => f a = .ok b) l bs := by
  induction l generalizing bs with
  | nil =>
    cases ran
    exact .nil
  | cons a l ih =>
    rw [List.mapM_cons] at ran
    obtain ⟨b, first, ran⟩ := except_bind_eq_ok.mp ran
    obtain ⟨rest, next, ran⟩ := except_bind_eq_ok.mp ran
    cases ran
    exact .cons first (ih next)

/-- The computation ends, and if it succeeds, with a value that satisfies `P`. -/
def Ends (x : ExceptT ε Option α) (P : α → Prop) : Prop :=
  ∃ result, x.run = some result ∧ ∀ a, result = .ok a → P a

theorem ends_pure (holds : P a) : Ends (pure a : ExceptT ε Option α) P :=
  ⟨.ok a, rfl, fun _ same => Except.ok.inj same ▸ holds⟩

theorem Ends.bind {x : ExceptT ε Option α} {f : α → ExceptT ε Option β} {Q : β → Prop}
    (first : Ends x P) (next : ∀ a, P a → Ends (f a) Q) : Ends (x >>= f) Q := by
  obtain ⟨res, ran, holds⟩ := first
  cases res with
  | error e => exact ⟨.error e, by simp [ran], nofun⟩
  | ok a =>
    obtain ⟨res, ran', holds'⟩ := next a (holds a rfl)
    exact ⟨res, by simpa [ran] using ran', holds'⟩

theorem ends_liftM_except (holds : ∀ a, x = .ok a → P a) : Ends (liftM x : ExceptT ε Option α) P :=
  ⟨x, rfl, holds⟩

end Fallible
