import Mathlib

/-! # Ledgers

A ledger lists what tasks have outstanding: at most one entry for each task. It is kept in the shared
state, while what one task has outstanding is also part of that task's token; `Ledger` says that the
two agree. When no task has anything outstanding, the ledger is empty, whatever the number of tasks.
-/

namespace DiskAnn.Machine

open List Function

variable {τ A T : Type}

/-- The entries are what the tasks have outstanding. -/
structure Ledger (entries : List (τ × A)) (outstanding : τ → Option A) : Prop where
  distinct : (entries.map Prod.fst).Nodup
  mem_iff : ∀ task a, (task, a) ∈ entries ↔ outstanding task = some a

namespace Ledger

variable {entries : List (τ × A)} {view : T → Option A} {tokens : τ → T}

theorem nil (none : ∀ task, view (tokens task) = none) :
    Ledger ([] : List (τ × A)) fun task => view (tokens task) :=
  ⟨nodup_nil, fun task a => by simp [none]⟩

theorem eq_nil {outstanding : τ → Option A} (ledger : Ledger entries outstanding)
    (none : ∀ task, outstanding task = none) : entries = [] := by
  refine eq_nil_iff_forall_not_mem.mpr fun ⟨task, a⟩ mem => ?_
  have some := (ledger.mem_iff task a).mp mem
  rw [none] at some
  cases some

variable [DecidableEq τ] {task : τ} {token' : T} (ledger : Ledger entries fun task => view (tokens task))
include ledger

theorem same (same : view token' = view (tokens task)) :
    Ledger entries fun other => view (update tokens task token' other) := by
  refine ⟨ledger.distinct, fun other a => (ledger.mem_iff other a).trans ?_⟩
  by_cases here : other = task
  · subst here
    rw [update_self, same]
  · rw [update_of_ne here]

theorem append (before : view (tokens task) = none) {a : A} (after : view token' = some a) :
    Ledger (entries ++ [(task, a)]) fun other => view (update tokens task token' other) := by
  have absent : ∀ b, (task, b) ∉ entries := fun b mem => by
    have some := (ledger.mem_iff task b).mp mem
    rw [before] at some
    cases some
  constructor
  · rw [map_append]
    refine Nodup.append ledger.distinct (nodup_singleton _) ?_
    intro other first second
    obtain rfl := mem_singleton.mp second
    obtain ⟨⟨_, b⟩, mem, rfl⟩ := mem_map.mp first
    exact absent b mem
  · intro other b
    rw [mem_append, ledger.mem_iff]
    by_cases here : other = task
    · subst here
      rw [update_self, after, before]
      simp [eq_comm]
    · rw [update_of_ne here]
      simp [here]

theorem erase [DecidableEq A] {a : A}
    (before : view (tokens task) = some a) (after : view token' = none) :
    Ledger (entries.erase (task, a)) fun other =>
      view (update tokens task token' other) := by
  refine ⟨ledger.distinct.sublist (erase_sublist.map _), fun other b => ?_⟩
  rw [ledger.distinct.of_map.mem_erase_iff, ledger.mem_iff]
  by_cases here : other = task
  · subst here
    rw [update_self, after, before]
    simp [eq_comm]
  · rw [update_of_ne here]
    simp [here]

/-- Whatever a task has outstanding is struck out. -/
theorem filter (after : view token' = none) :
    Ledger (entries.filter (·.1 ≠ task)) fun other =>
      view (update tokens task token' other) := by
  refine ⟨ledger.distinct.sublist (filter_sublist.map _), fun other b => ?_⟩
  rw [mem_filter, ledger.mem_iff]
  by_cases here : other = task
  · subst here
    rw [update_self, after]
    simp
  · rw [update_of_ne here]
    simp [here]

end Ledger

end DiskAnn.Machine
