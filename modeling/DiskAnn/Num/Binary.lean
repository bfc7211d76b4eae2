import Mathlib

/-! # Arithmetic of binary floating-point formats

A finite value that is not negative is a natural number of units, a unit being the least positive
value of the format. `units` is the value that an encoding (the bit pattern without the sign) stands
for and `nearest` the encoding of the value nearest to a quotient, a tie going to the even one. Both
are defined past the largest exponent; a format cuts them off at its infinity. What is not a number
has one encoding here.
-/

namespace Binary

open Nat

/-! ## Rounding to an integer -/

/-- The integer nearest to `num / den`, a tie going to the even one. -/
def roundEven (num den : ℕ) : ℕ :=
  if den < 2 * (num % den) ∨ (2 * (num % den) = den ∧ num / den % 2 = 1) then num / den + 1
  else num / den

theorem le_roundEven {num den k : ℕ} (pos : 0 < den) (below : k * den ≤ num) :
    k ≤ roundEven num den := by
  have quotient : k ≤ num / den := (le_div_iff_mul_le pos).mpr below
  unfold roundEven
  split <;> omega

theorem roundEven_le {num den k : ℕ} (pos : 0 < den) (above : num ≤ k * den) :
    roundEven num den ≤ k := by
  rcases Nat.eq_zero_or_pos (num % den) with exact | inexact
  · have quotient : num / den ≤ k := Nat.div_le_of_le_mul (by rwa [Nat.mul_comm] at above)
    unfold roundEven
    rw [if_neg (by omega)]
    exact quotient
  · have quotient : num / den < k := by
      rw [div_lt_iff_lt_mul pos]
      rcases num.lt_or_ge (k * den) with less | most
      · exact less
      · have equal : num = k * den := le_antisymm above most
        rw [equal, mul_mod_left] at inexact
        omega
    unfold roundEven
    split <;> omega

/-! ## Encodings of magnitudes -/

section Magnitude

variable {fraction : ℕ} {m num den : ℕ}

/-- The units of the encoding `m`. -/
def units (fraction m : ℕ) : ℕ :=
  if m < 2 ^ fraction then m else (2 ^ fraction + m % 2 ^ fraction) * 2 ^ (m / 2 ^ fraction - 1)

/-- The encoding of the value nearest to `num / den` units. -/
def nearest (fraction num den : ℕ) : ℕ :=
  let exponent := Nat.log2 (num / den) - fraction
  -- a significand rounded up to the next power of two is carried into the exponent
  exponent * 2 ^ fraction + roundEven num (den * 2 ^ exponent)

theorem units_of_lt (subnormal : m < 2 ^ fraction) : units fraction m = m :=
  if_pos subnormal

theorem units_normal (exponent : ℕ) {rest : ℕ} (small : rest < 2 ^ fraction) :
    units fraction ((exponent + 1) * 2 ^ fraction + rest) =
      (2 ^ fraction + rest) * 2 ^ exponent := by
  have pos : 0 < 2 ^ fraction := fraction.two_pow_pos
  have normal : ¬ (exponent + 1) * 2 ^ fraction + rest < 2 ^ fraction := by
    rw [succ_mul]
    omega
  have quotient : ((exponent + 1) * 2 ^ fraction + rest) / 2 ^ fraction = exponent + 1 := by
    rw [add_comm, add_mul_div_right _ _ pos, div_eq_of_lt small, zero_add]
  have remainder : ((exponent + 1) * 2 ^ fraction + rest) % 2 ^ fraction = rest := by
    rw [add_comm, add_mul_mod_self_right, mod_eq_of_lt small]
  rw [units, if_neg normal, quotient, remainder, Nat.add_sub_cancel]

/-- An encoding is subnormal or has an exponent and the rest of a significand. -/
theorem encoding_cases (fraction m : ℕ) :
    m < 2 ^ fraction ∨
      ∃ exponent rest, rest < 2 ^ fraction ∧ m = (exponent + 1) * 2 ^ fraction + rest := by
  have pos : 0 < 2 ^ fraction := fraction.two_pow_pos
  rcases m.lt_or_ge (2 ^ fraction) with subnormal | normal
  · exact .inl subnormal
  · refine .inr ⟨m / 2 ^ fraction - 1, m % 2 ^ fraction, m.mod_lt pos, ?_⟩
    have one : 1 ≤ m / 2 ^ fraction := (le_div_iff_mul_le pos).mpr (by omega)
    rw [Nat.sub_add_cancel one]
    exact (div_add_mod' m _).symm

/-- The exponent with which a quotient is rounded: the significand gets `fraction + 1` bits, fewer
only at the least exponent. -/
def binade (fraction num den : ℕ) : ℕ := Nat.log2 (num / den) - fraction

theorem nearest_eq (num den : ℕ) :
    nearest fraction num den = binade fraction num den * 2 ^ fraction +
      roundEven num (den * 2 ^ binade fraction num den) := rfl

theorem le_of_binade (pos : 0 < den) (normal : 0 < binade fraction num den) :
    2 ^ fraction * (den * 2 ^ binade fraction num den) ≤ num := by
  have nonzero : num / den ≠ 0 := by
    intro zero
    rw [binade, zero, show log2 0 = 0 from rfl] at normal
    omega
  have low : 2 ^ (fraction + binade fraction num den) ≤ num / den :=
    (Nat.pow_le_pow_right (by decide) (by unfold binade at *; omega)).trans
      (log2_self_le nonzero)
  calc 2 ^ fraction * (den * 2 ^ binade fraction num den)
      = 2 ^ (fraction + binade fraction num den) * den := by ring
    _ ≤ num := (le_div_iff_mul_le pos).mp low

theorem lt_of_binade (fraction num : ℕ) (pos : 0 < den) :
    num < 2 ^ (fraction + 1) * (den * 2 ^ binade fraction num den) := by
  have high : num / den < 2 ^ (fraction + binade fraction num den + 1) :=
    Nat.lt_log2_self.trans_le (Nat.pow_le_pow_right (by decide) (by unfold binade; omega))
  calc num < 2 ^ (fraction + binade fraction num den + 1) * den :=
        (div_lt_iff_lt_mul pos).mp high
    _ = 2 ^ (fraction + 1) * (den * 2 ^ binade fraction num den) := by ring

theorem le_binade {exponent : ℕ} (pos : 0 < den) (large : 2 ^ (fraction + exponent) * den ≤ num) :
    exponent ≤ binade fraction num den := by
  have low : 2 ^ (fraction + exponent) ≤ num / den := (le_div_iff_mul_le pos).mpr large
  have nonzero : num / den ≠ 0 := by
    have := Nat.two_pow_pos (fraction + exponent)
    omega
  have := (le_log2 nonzero).mpr low
  unfold binade
  omega

theorem binade_le {exponent : ℕ} (small : num < 2 ^ (fraction + 1 + exponent) * den) :
    binade fraction num den ≤ exponent := by
  unfold binade
  rcases Nat.eq_zero_or_pos (num / den) with zero | nonzero
  · rw [zero, show log2 0 = 0 from rfl]
    omega
  · have high : num / den < 2 ^ (fraction + 1 + exponent) :=
      Nat.div_lt_of_lt_mul (by rwa [Nat.mul_comm])
    have := (log2_lt (by omega)).mpr high
    omega

/-- A quotient that is at least a value of the format is not rounded below it. -/
theorem le_nearest (pos : 0 < den) (below : units fraction m * den ≤ num) :
    m ≤ nearest fraction num den := by
  have unit : 0 < den * 2 ^ binade fraction num den := Nat.mul_pos pos (Nat.two_pow_pos _)
  rw [nearest_eq]
  rcases encoding_cases fraction m with subnormal | ⟨exponent, rest, small, rfl⟩
  · rw [units_of_lt subnormal] at below
    rcases Nat.eq_zero_or_pos (binade fraction num den) with zero | normal
    · rw [zero, zero_mul, zero_add, pow_zero, mul_one]
      exact le_roundEven pos below
    · have := le_roundEven unit (le_of_binade pos normal)
      omega
  · rw [units_normal exponent small] at below
    have reached : exponent ≤ binade fraction num den := le_binade pos (by
      calc 2 ^ (fraction + exponent) * den = 2 ^ fraction * 2 ^ exponent * den := by rw [pow_add]
        _ ≤ (2 ^ fraction + rest) * 2 ^ exponent * den := by gcongr; omega
        _ ≤ num := below)
    rcases reached.eq_or_lt with same | above
    · have significand : 2 ^ fraction + rest ≤ roundEven num (den * 2 ^ exponent) := by
        refine le_roundEven (same ▸ unit) ?_
        calc (2 ^ fraction + rest) * (den * 2 ^ exponent)
            = (2 ^ fraction + rest) * 2 ^ exponent * den := by ring
          _ ≤ num := below
      rw [← same, succ_mul]
      omega
    · have significand := le_roundEven unit (le_of_binade pos (by omega))
      have : (exponent + 1) * 2 ^ fraction ≤ binade fraction num den * 2 ^ fraction :=
        mul_le_mul_right _ above
      omega

/-- A quotient that is at most a value of the format is not rounded above it. -/
theorem nearest_le (pos : 0 < den) (above : num ≤ units fraction m * den) :
    nearest fraction num den ≤ m := by
  have unit : 0 < den * 2 ^ binade fraction num den := Nat.mul_pos pos (Nat.two_pow_pos _)
  rw [nearest_eq]
  rcases encoding_cases fraction m with subnormal | ⟨exponent, rest, small, rfl⟩
  · rw [units_of_lt subnormal] at above
    have zero : binade fraction num den = 0 := by
      refine le_zero.mp (binade_le (above.trans_lt (mul_lt_mul_of_pos_right ?_ pos)))
      rw [pow_succ]
      omega
    rw [zero, zero_mul, zero_add, pow_zero, mul_one]
    exact roundEven_le pos above
  · rw [units_normal exponent small] at above
    have reached : binade fraction num den ≤ exponent := by
      refine binade_le (above.trans_lt (mul_lt_mul_of_pos_right ?_ pos))
      rw [pow_add]
      exact Nat.mul_lt_mul_of_pos_right (by omega) (Nat.two_pow_pos _)
    rcases reached.eq_or_lt with same | less
    · have significand : roundEven num (den * 2 ^ exponent) ≤ 2 ^ fraction + rest := by
        refine roundEven_le (same ▸ unit) ?_
        calc num ≤ (2 ^ fraction + rest) * 2 ^ exponent * den := above
          _ = (2 ^ fraction + rest) * (den * 2 ^ exponent) := by ring
      rw [same, succ_mul]
      omega
    · have significand := roundEven_le unit (lt_of_binade fraction num pos).le
      have : (binade fraction num den + 1) * 2 ^ fraction ≤ exponent * 2 ^ fraction :=
        mul_le_mul_right _ less
      rw [succ_mul] at this ⊢
      omega

/-- A value of the format is not changed by rounding. -/
theorem nearest_units (m : ℕ) (pos : 0 < den) : nearest fraction (units fraction m * den) den = m :=
  le_antisymm (nearest_le pos le_rfl) (le_nearest pos le_rfl)

theorem units_strictMono (fraction : ℕ) : StrictMono (units fraction) := by
  intro m n less
  by_contra reversed
  have : nearest fraction (units fraction n * 1) 1 ≤ m :=
    nearest_le one_pos (mul_le_mul_right 1 (not_lt.mp reversed))
  rw [nearest_units n one_pos] at this
  omega

/-- The distance from a normal value to the next one, relative to the value. -/
theorem units_succ_le (normal : 2 ^ fraction ≤ m) :
    units fraction (m + 1) * 2 ^ fraction ≤ units fraction m * (2 ^ fraction + 1) := by
  rcases encoding_cases fraction m with subnormal | ⟨exponent, rest, small, rfl⟩
  · omega
  · have next : units fraction ((exponent + 1) * 2 ^ fraction + rest + 1) =
        (2 ^ fraction + rest + 1) * 2 ^ exponent := by
      rcases lt_or_ge (rest + 1) (2 ^ fraction) with inside | carried
      · exact units_normal exponent inside
      · have full : rest + 1 = 2 ^ fraction := by omega
        have carry : (exponent + 1) * 2 ^ fraction + rest + 1 =
            (exponent + 1 + 1) * 2 ^ fraction + 0 := by
          rw [succ_mul (exponent + 1)]
          omega
        rw [carry, units_normal (exponent + 1) (Nat.two_pow_pos _), Nat.add_assoc, full]
        ring
    rw [next, units_normal exponent small]
    have : (2 ^ fraction + rest + 1) * 2 ^ fraction ≤
        (2 ^ fraction + rest) * (2 ^ fraction + 1) := by
      nlinarith
    calc (2 ^ fraction + rest + 1) * 2 ^ exponent * 2 ^ fraction
        = (2 ^ fraction + rest + 1) * 2 ^ fraction * 2 ^ exponent := by ring
      _ ≤ (2 ^ fraction + rest) * (2 ^ fraction + 1) * 2 ^ exponent := mul_le_mul_right _ this
      _ = (2 ^ fraction + rest) * 2 ^ exponent * (2 ^ fraction + 1) := by ring

end Magnitude

/-! ## Values of a format -/

/-- The widths of the two fields of a format. -/
structure Format where
  fraction : ℕ
  exponent : ℕ
  deriving DecidableEq, Repr

def Format.binary32 : Format := ⟨23, 8⟩

def Format.binary64 : Format := ⟨52, 11⟩

/-- The encoding of the infinities; what lies above is not a number. -/
def Format.infinity (f : Format) : ℕ := (2 ^ f.exponent - 1) * 2 ^ f.fraction

/-- The units that make up the number one. -/
def Format.scale (f : Format) : ℕ := 2 ^ (2 ^ (f.exponent - 1) - 2 + f.fraction)

theorem Format.scale_pos (f : Format) : 0 < f.scale := Nat.two_pow_pos _

structure Value where
  negative : Bool
  magnitude : ℕ
  deriving DecidableEq, Repr

namespace Value

variable (f : Format)

def isNan (v : Value) : Bool := f.infinity < v.magnitude

def isInfinite (v : Value) : Bool := v.magnitude == f.infinity

def isZero (v : Value) : Bool := v.magnitude == 0

def units (v : Value) : ℕ := Binary.units f.fraction v.magnitude

def signedUnits (v : Value) : ℤ := if v.negative then -v.units f else v.units f

def nan : Value := ⟨false, f.infinity + 2 ^ (f.fraction - 1)⟩

/-- The value nearest to `num / den` units, or an infinity when that is past the largest one. -/
def rounded (negative : Bool) (num den : ℕ) : Value :=
  ⟨negative, min (nearest f.fraction num den) f.infinity⟩

def mul (v w : Value) : Value :=
  if v.isNan f || w.isNan f then nan f
  else if v.isInfinite f || w.isInfinite f then
    if v.isZero || w.isZero then nan f else ⟨v.negative ^^ w.negative, f.infinity⟩
  else rounded f (v.negative ^^ w.negative) (v.units f * w.units f) f.scale

def div (v w : Value) : Value :=
  if v.isNan f || w.isNan f then nan f
  else if v.isInfinite f then
    if w.isInfinite f then nan f else ⟨v.negative ^^ w.negative, f.infinity⟩
  else if w.isInfinite f then ⟨v.negative ^^ w.negative, 0⟩
  else if w.isZero then
    if v.isZero then nan f else ⟨v.negative ^^ w.negative, f.infinity⟩
  else rounded f (v.negative ^^ w.negative) (v.units f * f.scale) (w.units f)

def add (v w : Value) : Value :=
  if v.isNan f || w.isNan f then nan f
  else if v.isInfinite f then
    if w.isInfinite f && v.negative != w.negative then nan f else v
  else if w.isInfinite f then w
  else
    let sum := v.signedUnits f + w.signedUnits f
    if sum = 0 then ⟨v.negative && w.negative, 0⟩ else rounded f (sum < 0) sum.natAbs 1

def ofNat (n : ℕ) : Value := rounded f false (n * f.scale) 1

/-- Truncation to an integer type whose largest value is `limit`. -/
def toNat (limit : ℕ) (v : Value) : ℕ :=
  if v.isNan f || v.negative then 0
  else if v.isInfinite f then limit
  else min (v.units f / f.scale) limit

/-- Truncation to a signed integer type. -/
def toInt (low high : ℤ) (v : Value) : ℤ :=
  if v.isNan f then 0
  else if v.isInfinite f then if v.negative then low else high
  else max low (min high ((v.signedUnits f).tdiv f.scale))

variable {f} {v w : Value}

theorem mul_of_finite (hv : v.magnitude < f.infinity) (hw : w.magnitude < f.infinity) :
    v.mul f w = rounded f (v.negative ^^ w.negative) (v.units f * w.units f) f.scale := by
  have numbers : (v.isNan f || w.isNan f) = false := by simp [isNan]; omega
  have finite : (v.isInfinite f || w.isInfinite f) = false := by simp [isInfinite]; omega
  simp only [mul, numbers, finite, Bool.false_eq_true, if_false]

theorem mul_comm (v w : Value) : v.mul f w = w.mul f v := by
  simp only [mul, Bool.or_comm, Bool.xor_comm, Nat.mul_comm]

/-- A product that is at least a value of the format is not rounded below it. -/
theorem le_magnitude_mul {m : ℕ} (hv : v.magnitude < f.infinity) (hw : w.magnitude < f.infinity)
    (hm : m ≤ f.infinity) (below : Binary.units f.fraction m * f.scale ≤ v.units f * w.units f) :
    m ≤ (v.mul f w).magnitude := by
  rw [mul_of_finite hv hw]
  exact le_min (le_nearest f.scale_pos below) hm

theorem mul_one {one : Value} (number : v.isNan f = false) (pos : one.negative = false)
    (finite : one.magnitude < f.infinity) (unit : one.units f = f.scale) : v.mul f one = v := by
  have hv : v.magnitude ≤ f.infinity := by simpa [isNan] using number
  rcases hv.eq_or_lt with infinite | inside
  · have hnan : one.isNan f = false := by simp [isNan, finite.le]
    have nonzero : (v.isZero || one.isZero) = false := by
      have one_ne : one.magnitude ≠ 0 := by
        intro zero
        rw [units, zero, units_of_lt (Nat.two_pow_pos _)] at unit
        exact (f.scale_pos.ne unit).elim
      have self_ne : v.magnitude ≠ 0 := by omega
      simp [isZero, one_ne, self_ne]
    have hinf : v.isInfinite f = true := by simp [isInfinite, infinite]
    simp only [mul, number, hnan, hinf, nonzero, pos, Bool.or_self, Bool.true_or,
      Bool.false_eq_true, if_false, if_true, Bool.xor_false, ← infinite]
  · rw [mul_of_finite inside finite, rounded, unit, units, nearest_units _ f.scale_pos, pos,
      Bool.xor_false, min_eq_left hv]

/-- A quotient is a number unless both operands are zero or both are infinite. -/
theorem magnitude_div_le (hv : v.isNan f = false) (hw : w.isNan f = false)
    (zeros : v.magnitude ≠ 0 ∨ w.magnitude ≠ 0)
    (infinities : v.magnitude ≠ f.infinity ∨ w.magnitude ≠ f.infinity) :
    (v.div f w).magnitude ≤ f.infinity := by
  unfold div
  rw [hv, hw, Bool.or_self, if_neg Bool.false_ne_true]
  split_ifs with h₁ h₂ h₃ h₄ h₅
  · simp only [isInfinite, beq_iff_eq] at h₁ h₂
    omega
  · exact le_rfl
  · exact zero_le _
  · simp only [isZero, beq_iff_eq] at h₄ h₅
    omega
  · exact le_rfl
  · exact min_le_right _ _

end Value

end Binary
