import Mathlib

/-! # Lexicographic order

Strings with a common beginning are ordered by their ends, and what lies between two of them begins
as they do. Numbers with a fixed count of digits, the first digit first, are ordered as numbers.
-/

namespace List

section Beginning

variable {α : Type*} [LT α]

theorem append_lt_append_left_iff [Std.Irrefl (α := α) (· < ·)] (start : List α) {a b : List α} :
    start ++ a < start ++ b ↔ a < b := by
  induction start with
  | nil => rfl
  | cons x start ih =>
    rw [cons_append, cons_append, cons_lt_cons_iff, ih]
    constructor
    · rintro (self | ⟨-, below⟩)
      · exact absurd self (Std.Irrefl.irrefl x)
      · exact below
    · exact fun below => .inr ⟨rfl, below⟩

/-- What lies between two strings with a common beginning has that beginning. -/
theorem between_append_iff [Std.Irrefl (α := α) (· < ·)] (start : List α) {low high key : List α} :
    start ++ low ≤ key ∧ key < start ++ high ↔
      ∃ rest, key = start ++ rest ∧ low ≤ rest ∧ rest < high := by
  constructor
  · rintro ⟨above, below⟩
    induction start generalizing key with
    | nil => exact ⟨key, rfl, above, below⟩
    | cons x start ih =>
      cases key with
      | nil => exact absurd (nil_lt_cons x _) above
      | cons y key =>
        rw [cons_append, cons_lt_cons_iff] at below
        rcases below with smaller | ⟨rfl, below⟩
        · exact absurd (cons_lt_cons_iff.mpr (.inl smaller)) above
        · have behind : start ++ low ≤ key := fun before =>
            above (cons_lt_cons_iff.mpr (.inr ⟨rfl, before⟩))
          obtain ⟨rest, rfl, bounds⟩ := ih behind below
          exact ⟨rest, rfl, bounds⟩
  · rintro ⟨rest, rfl, above, below⟩
    exact ⟨mt (append_lt_append_left_iff start).mp above, (append_lt_append_left_iff start).mpr below⟩

end Beginning

/-! ## Digits -/

/-- The last digits of a number, the first of them first. -/
def bigEndian (base : ℕ) : ℕ → ℕ → List ℕ
  | 0, _ => []
  | width + 1, n => n / base ^ width % base :: bigEndian base width n

theorem lt_of_mem_bigEndian {base width n digit : ℕ} (pos : 0 < base)
    (mem : digit ∈ bigEndian base width n) : digit < base := by
  induction width with
  | zero => cases mem
  | succ width ih =>
    rcases mem_cons.mp mem with rfl | mem
    · exact Nat.mod_lt _ pos
    · exact ih mem

/-- A number is ordered by its first digit and then by the rest. -/
theorem add_mul_lt_iff {unit a b p q : ℕ} (ha : a < unit) (hb : b < unit) :
    a + unit * p < b + unit * q ↔ p < q ∨ p = q ∧ a < b := by
  rcases p.lt_trichotomy q with below | rfl | above
  · have step := Nat.mul_le_mul_left unit (Nat.succ_le_of_lt below)
    rw [Nat.mul_succ] at step
    exact iff_of_true (by omega) (.inl below)
  · simp
  · have step := Nat.mul_le_mul_left unit (Nat.succ_le_of_lt above)
    rw [Nat.mul_succ] at step
    exact iff_of_false (by omega) (by omega)

theorem map_bigEndian_lt_iff {β : Type*} [LT β] {f : ℕ → β} {base : ℕ} (pos : 0 < base)
    (order : ∀ a < base, ∀ b < base, (f a < f b ↔ a < b))
    (distinct : ∀ a < base, ∀ b < base, (f a = f b ↔ a = b)) (width a b : ℕ) :
    (bigEndian base width a).map f < (bigEndian base width b).map f ↔
      a % base ^ width < b % base ^ width := by
  induction width with
  | zero =>
    rw [pow_zero, Nat.mod_one, Nat.mod_one]
    exact iff_of_false (not_lt_nil _) (Nat.lt_irrefl 0)
  | succ width ih =>
    have da := Nat.mod_lt (a / base ^ width) pos
    have db := Nat.mod_lt (b / base ^ width) pos
    have unit : 0 < base ^ width := Nat.pow_pos pos
    rw [bigEndian, bigEndian, map_cons, map_cons, cons_lt_cons_iff, order _ da _ db,
      distinct _ da _ db, ih, Nat.mod_pow_succ, Nat.mod_pow_succ,
      add_mul_lt_iff (a.mod_lt unit) (b.mod_lt unit)]

end List
