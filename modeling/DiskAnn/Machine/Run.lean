import Mathlib

/-! # Runs of a fallible step

A sequential component is a step function that answers the next state, or `none` when it fails. A
run folds it over a list of operations; a guarded run meets a condition on every operation in the
state it is applied to.
-/

namespace DiskAnn.Machine

variable {S Op : Type}

def run (step : S → Op → Option S) (s : S) (ops : List Op) : Option S := ops.foldlM step s

def GuardedRun (step : S → Op → Option S) (guard : S → Op → Prop) : S → List Op → Prop
  | _, [] => True
  | s, op :: ops => guard s op ∧ ∀ s', step s op = some s' → GuardedRun step guard s' ops

variable {step : S → Op → Option S} {guard : S → Op → Prop} {s s' : S} {op : Op} {ops : List Op}

instance decidableGuardedRun [∀ s op, Decidable (guard s op)] :
    (s : S) → (ops : List Op) → Decidable (GuardedRun step guard s ops)
  | _, [] => isTrue trivial
  | s, op :: ops =>
    have : Decidable (∀ s', step s op = some s' → GuardedRun step guard s' ops) :=
      match step s op with
      | none => isTrue nofun
      | some s' =>
        match decidableGuardedRun s' ops with
        | isTrue guarded => isTrue fun _ same => Option.some.inj same ▸ guarded
        | isFalse refused => isFalse fun all => refused (all s' rfl)
    inferInstanceAs (Decidable (_ ∧ _))

theorem run_cons (stepped : step s op = some s') : run step s (op :: ops) = run step s' ops := by
  rw [run, List.foldlM_cons, stepped]
  rfl

theorem run_append {before after : List Op} (ran : run step s before = some s') :
    run step s (before ++ after) = run step s' after := by
  rw [run, List.foldlM_append, ← run, ran]
  rfl

theorem GuardedRun.append {before after : List Op} (guarded : GuardedRun step guard s (before ++ after)) :
    GuardedRun step guard s before ∧
      ∀ s', run step s before = some s' → GuardedRun step guard s' after := by
  induction before generalizing s with
  | nil => exact ⟨trivial, fun s' same => Option.some.inj same ▸ guarded⟩
  | cons op before ih =>
    obtain ⟨holds, rest⟩ := guarded
    refine ⟨⟨holds, fun s' stepped => (ih (rest s' stepped)).1⟩, fun final ran => ?_⟩
    obtain ⟨s', stepped, ran⟩ := Option.bind_eq_some_iff.mp ran
    exact (ih (rest s' stepped)).2 final ran

end DiskAnn.Machine
