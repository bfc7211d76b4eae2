import Mathlib

/-! # Truncation

Rounding towards zero, and the numbers that it takes past an integer when the result is kept within
the range of an integer type.
-/

namespace DiskAnn

/-- Rounding to an integer towards zero. -/
def trunc (q : ℚ) : ℤ := if 0 ≤ q then ⌊q⌋ else ⌈q⌉

theorem tdiv_eq_trunc (a : ℤ) {b : ℕ} (pos : 0 < b) : a.tdiv b = trunc (a / b) := by
  have pos' : (0 : ℚ) < b := by exact_mod_cast pos
  unfold trunc
  split <;> rename_i sign
  · have nonneg : 0 ≤ a := by
      rw [div_nonneg_iff] at sign
      rcases sign with ⟨h, -⟩ | ⟨-, h⟩
      · exact_mod_cast h
      · linarith
    rw [Int.tdiv_eq_ediv_of_nonneg nonneg, Rat.floor_intCast_div_natCast]
  · have negative : a < 0 := by
      by_contra h
      exact sign (div_nonneg (by exact_mod_cast not_lt.mp h) pos'.le)
    have flip : (a : ℚ) / b = -(((-a : ℤ) : ℚ) / b) := by push_cast; ring
    rw [flip, Int.ceil_neg, Rat.floor_intCast_div_natCast, ← Int.tdiv_eq_ediv_of_nonneg (by omega),
      Int.neg_tdiv, neg_neg]

theorem trunc_le_iff {q : ℚ} {n : ℤ} : trunc q ≤ n ↔ q ≤ n ∨ 0 < q ∧ q < n + 1 := by
  unfold trunc
  split <;> rename_i sign
  · rw [Int.floor_le_iff]
    constructor
    · intro below
      rcases sign.eq_or_lt with rfl | pos
      · have whole : (-1 : ℤ) < n := by exact_mod_cast (by linarith : (-1 : ℚ) < n)
        exact .inl (by exact_mod_cast (by omega : (0 : ℤ) ≤ n))
      · exact .inr ⟨pos, below⟩
    · rintro (at_most | ⟨-, below⟩)
      · linarith
      · exact below
  · rw [Int.ceil_le]
    exact (or_iff_left fun pos => sign pos.1.le).symm

theorem trunc_lt_iff {q : ℚ} {n : ℤ} : trunc q < n ↔ q < n ∧ ¬(q < 0 ∧ n - 1 < q) := by
  unfold trunc
  split <;> rename_i sign
  · rw [Int.floor_lt]
    exact (and_iff_left fun negative => not_lt.mpr sign negative.1).symm
  · rw [← Int.le_sub_one_iff, Int.ceil_le]
    push_cast
    have negative := not_le.mp sign
    constructor
    · exact fun below => ⟨by linarith, fun between => by linarith [between.2]⟩
    · exact fun ⟨_, between⟩ => not_lt.mp fun above => between ⟨negative, above⟩

/-! ## Within a range -/

variable {low high n : ℤ} (q : ℚ) (sized : low ≤ 0 ∧ 0 ≤ high) (inside : low ≤ n ∧ n ≤ high)

include sized inside in
theorem clamp_trunc_le_iff :
    max low (min high (trunc q)) ≤ n ↔ q ≤ n ∨ 0 < q ∧ (q < n + 1 ∨ n = high) := by
  have clamped : max low (min high (trunc q)) ≤ n ↔ trunc q ≤ n ∨ n = high := by omega
  rw [clamped, trunc_le_iff]
  constructor
  · rintro ((at_most | ⟨pos, below⟩) | top)
    · exact .inl at_most
    · exact .inr ⟨pos, .inl below⟩
    · rcases lt_or_ge 0 q with pos | rest
      · exact .inr ⟨pos, .inr top⟩
      · exact .inl (rest.trans (by exact_mod_cast top ▸ sized.2))
  · rintro (at_most | ⟨pos, below | top⟩)
    · exact .inl (.inl at_most)
    · exact .inl (.inr ⟨pos, below⟩)
    · exact .inr top

include sized inside in
theorem clamp_trunc_lt_iff :
    max low (min high (trunc q)) < n ↔ q < n ∧ ¬(q < 0 ∧ (n - 1 < q ∨ n = low)) := by
  have clamped : max low (min high (trunc q)) < n ↔ trunc q < n ∧ n ≠ low := by omega
  rw [clamped, trunc_lt_iff, and_assoc, and_or_left, not_or]
  refine and_congr_right fun below => and_congr_right fun _ => ⟨?_, ?_⟩
  · exact fun other bottom => other bottom.2
  · rintro apart rfl
    have bottom : (n : ℚ) ≤ 0 := by exact_mod_cast sized.1
    exact apart ⟨below.trans_le bottom, rfl⟩

end DiskAnn
