import DiskAnn.Num.Binary
import DiskAnn.Num.Trunc

/-! # IEEE 754 binary64 values

A value is its bit pattern. Integers become the nearest value, a tie the one whose last bit is zero.
Comparisons are false when an operand is not a number, and arithmetic is that of `Binary.binary64`.
-/

namespace DiskAnn

open Binary

structure F64 where
  bits : BitVec 64
  deriving DecidableEq, Repr

namespace F64

variable (x : F64)

/-- The bit pattern without the sign. -/
def magnitude : ℕ := x.bits.toNat % 2 ^ 63

def isNan : Bool := 0x7ff0000000000000 < x.magnitude

/-- `== 0.0` -/
def isZero : Bool := x.magnitude == 0

def zero : F64 := ⟨0⟩

/-- `-0.0` -/
def negZero : F64 := ⟨0x8000000000000000⟩

/-- `is_finite` -/
def isFinite : Bool := x.magnitude < 0x7ff0000000000000

/-- `f64::NAN` -/
def nan : F64 := ⟨0x7ff8000000000000⟩

/-- The bit pattern of the value nearest to a positive integer below `2 ^ 64`. -/
def bitsOfNat (n : ℕ) : ℕ :=
  if n = 0 then 0
  else
    let exponent := n.log2
    let significand :=
      if exponent ≤ 52 then n * 2 ^ (52 - exponent)
      else
        let unit := 2 ^ (exponent - 52)
        let quotient := n / unit
        if unit < 2 * (n % unit) ∨ (2 * (n % unit) = unit ∧ quotient % 2 = 1) then quotient + 1
        else quotient
    -- a significand that was rounded up to the next power of two raises the exponent
    (exponent + 1023) * 2 ^ 52 + significand - 2 ^ 52

/-- `as f64` from a `u64` -/
def ofU64 (n : BitVec 64) : F64 := ⟨.ofNat 64 (bitsOfNat n.toNat)⟩

/-- `as f64` from an `i64` -/
def ofI64 (n : BitVec 64) : F64 :=
  ⟨.ofNat 64 (bitsOfNat n.toInt.natAbs + if n.toInt < 0 then 2 ^ 63 else 0)⟩

example : ofU64 1 = ⟨0x3ff0000000000000⟩ ∧ ofU64 (2 ^ 53 + 1) = ofU64 (2 ^ 53) ∧
    ofU64 (2 ^ 53 + 3) = ofU64 (2 ^ 53 + 4) ∧ ofU64 (2 ^ 64 - 1) = ⟨0x43f0000000000000⟩ ∧
    ofI64 (-1) = ⟨0xbff0000000000000⟩ := by decide +kernel

/-! ## Arithmetic -/

/-- The place of a number in the order. -/
def key : ℤ := if x.bits.toNat < 2 ^ 63 then x.magnitude else -x.magnitude

def lt (x y : F64) : Bool := !x.isNan && !y.isNan && x.key < y.key

def ge (x y : F64) : Bool := !x.isNan && !y.isNan && y.key ≤ x.key

/-- `==` -/
def eq (x y : F64) : Bool := !x.isNan && !y.isNan && x.key == y.key

def one : F64 := ⟨0x3ff0000000000000⟩

def two : F64 := ⟨0x4000000000000000⟩

def half : F64 := ⟨0x3fe0000000000000⟩

/-- `0.1` -/
def tenth : F64 := ⟨0x3fb999999999999a⟩

def decode : Binary.Value := ⟨2 ^ 63 ≤ x.bits.toNat, x.magnitude⟩

def encode (v : Binary.Value) : F64 :=
  ⟨.ofNat 64 (v.magnitude + if v.negative then 2 ^ 63 else 0)⟩

def mul (x y : F64) : F64 := encode (x.decode.mul .binary64 y.decode)

def div (x y : F64) : F64 := encode (x.decode.div .binary64 y.decode)

def neg : F64 := ⟨x.bits ^^^ 0x8000000000000000⟩

/-- `f64::clamp`, which asserts that the bounds are ordered. -/
def clamp (x min max : F64) : Option F64 :=
  if max.ge min then some (if x.lt min then min else if max.lt x then max else x) else none

theorem isNan_of_isFinite {x : F64} (finite : x.isFinite = true) : x.isNan = false := by
  simp only [isFinite, isNan, decide_eq_true_eq, decide_eq_false_iff_not] at finite ⊢
  omega

theorem lt_iff {x y : F64} (hx : x.isNan = false) (hy : y.isNan = false) :
    x.lt y = true ↔ x.key < y.key := by
  simp [lt, hx, hy]

theorem ge_iff {x y : F64} (hx : x.isNan = false) (hy : y.isNan = false) :
    x.ge y = true ↔ y.key ≤ x.key := by
  simp [ge, hx, hy]

/-- `as f64` from a `usize` -/
def ofUsize (n : ℕ) : F64 := encode (.ofNat .binary64 n)

/-- `as usize` -/
def toUsize : ℕ := x.decode.toNat .binary64 (2 ^ 64 - 1)

/-- `as i64` -/
def toI64 : BitVec 64 := .ofInt 64 (x.decode.toInt .binary64 (-2 ^ 63) (2 ^ 63 - 1))

/-! ## As a number -/

/-- The number that a finite value stands for. -/
def toRat : ℚ := x.decode.signedUnits .binary64 / Binary.Format.binary64.scale

example : (ofI64 (-3)).toRat = -3 ∧ half.toRat = 1 / 2 ∧ half.neg.toI64 = 0 ∧
    (ofU64 (2 ^ 64 - 1)).toI64 = BitVec.intMax 64 := by decide +kernel

theorem toInt_toI64 {x : F64} (finite : x.isFinite = true) :
    x.toI64.toInt = max (-2 ^ 63) (min (2 ^ 63 - 1) (trunc x.toRat)) := by
  have number : x.decode.isNan .binary64 = false := isNan_of_isFinite finite
  have bounded : x.decode.isInfinite .binary64 = false := by
    simp only [isFinite, decide_eq_true_eq] at finite
    exact beq_false_of_ne finite.ne
  rw [toI64, Value.toInt, number, bounded,
    tdiv_eq_trunc _ (Format.scale_pos _), ← toRat, BitVec.toInt_ofInt]
  apply Int.bmod_eq_of_le
  · exact le_max_left _ _
  · omega

/-- The values below `2 ^ 63` end 1024 before it. -/
theorem toRat_le_of_lt {x : F64} (below : x.toRat < 2 ^ 63) : x.toRat ≤ 2 ^ 63 - 1024 := by
  have scale : (0 : ℚ) < Format.binary64.scale := by exact_mod_cast Format.scale_pos _
  rw [toRat, div_lt_iff₀ scale] at below
  rw [toRat, div_le_iff₀ scale]
  unfold Value.signedUnits at below ⊢
  split at below <;> rename_i sign
  · rw [if_pos sign]
    push_cast
    linarith
  · rw [if_neg sign]
    have border : units 52 0x43e0000000000000 = 2 ^ 63 * Format.binary64.scale := by
      decide +kernel
    have last : units 52 0x43dfffffffffffff =
        9223372036854774784 * Format.binary64.scale := by
      decide +kernel
    have order : x.magnitude < 0x43e0000000000000 := by
      apply (units_strictMono 52).lt_iff_lt.mp
      rw [border]
      exact_mod_cast below
    have most := (units_strictMono 52).monotone (Nat.le_of_lt_succ order)
    rw [last] at most
    have literal : (2 ^ 63 - 1024 : ℚ) = 9223372036854774784 := by norm_num
    rw [literal]
    exact_mod_cast most

theorem toInt_toI64_lt {x : F64} (finite : x.isFinite = true) (below : x.toRat < 2 ^ 63) :
    x.toI64.toInt < 2 ^ 63 - 1 := by
  have last := toRat_le_of_lt below
  rw [toInt_toI64 finite, clamp_trunc_lt_iff _ (by norm_num) (by norm_num)]
  push_cast
  constructor
  · linarith
  · rintro ⟨negative, above | bottom⟩
    · linarith
    · norm_num at bottom

end F64

end DiskAnn
