import Mathlib

/-! # Even splits

A total in parts whose sizes differ by at most one, the larger parts first.
-/

namespace DiskAnn

variable {total parts : ℕ}

/-- Where a part starts. -/
def evenOffset (total parts i : ℕ) : ℕ := i * (total / parts) + min i (total % parts)

theorem evenOffset_succ (total parts i : ℕ) : evenOffset total parts (i + 1) =
    evenOffset total parts i + (total / parts + if i < total % parts then 1 else 0) := by
  rw [evenOffset, evenOffset, Nat.succ_mul]
  split_ifs <;> omega

theorem evenOffset_last (pos : 0 < parts) : evenOffset total parts parts = total := by
  rw [evenOffset, min_eq_right (Nat.mod_lt _ pos).le, Nat.div_add_mod]

theorem evenOffset_strictMono (pos : 0 < parts) (le : parts ≤ total) : StrictMono (evenOffset total parts) := by
  refine strictMono_nat_of_lt_succ fun i => ?_
  have := Nat.div_pos le pos
  rw [evenOffset_succ]
  omega

end DiskAnn
